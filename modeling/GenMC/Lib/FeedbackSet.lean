import GenMC.Lib.Precedence

/-!
# Sets that meet all cycles

A feedback set of a relation is a set that every cycle goes through.  If a relation is changed at a
few elements only, its cycles go through these or through a feedback set from before
(`FeedbackSet.transfer`).  An element can be left out of a feedback set if it only leads to the rest
of the set (`FeedbackSet.drop`) or if it can be bypassed (`FeedbackSet.acyclic_of_bypass`).
-/

namespace GenMC

variable {α : Type*} {r r' : α → α → Prop} {X Y : Set α}

/-- The part of a relation that stays outside of a set. -/
def Outside (r : α → α → Prop) (X : Set α) (a b : α) : Prop := r a b ∧ a ∉ X ∧ b ∉ X

/-- Every cycle of the relation goes through the set. -/
def FeedbackSet (r : α → α → Prop) (X : Set α) : Prop := Acyclic (Outside r X)

/-- The empty set meets all cycles if there are none. -/
lemma feedbackSet_empty : FeedbackSet r ∅ ↔ Acyclic r := by
  have heq : Outside r ∅ = r := by
    funext a b
    simp [Outside]
  unfold FeedbackSet
  rw [heq]

namespace FeedbackSet

/-- What is related outside of the new set was related outside of the old one. -/
lemma transfer (h : FeedbackSet r X)
    (hsub : ∀ a b, r' a b → a ∉ Y → b ∉ Y → r a b ∧ a ∉ X ∧ b ∉ X) : FeedbackSet r' Y :=
  fun a hcycle => h a (Relation.TransGen.mono (fun b c hbc => hsub b c hbc.1 hbc.2.1 hbc.2.2) _ _
    hcycle)

/-- Larger sets meet more cycles. -/
lemma mono (h : FeedbackSet r X) (hXY : X ⊆ Y) : FeedbackSet r Y :=
  h.transfer fun _ _ hab ha hb => ⟨hab, fun hX => ha (hXY hX), fun hX => hb (hXY hX)⟩

/-- Elements that lead to nothing but the set are on no other cycle. -/
lemma drop (h : FeedbackSet r Y) (hexit : ∀ s ∈ Y, s ∉ X → ∀ b, r s b → b ∈ X) :
    FeedbackSet r X := by
  -- a step that stays outside of `X` starts outside of `Y`
  have hstart : ∀ {a b}, Outside r X a b → a ∉ Y := fun hab hY =>
    hab.2.2 (hexit _ hY hab.2.1 _ hab.1)
  have hpath : ∀ {a b}, Relation.TransGen (Outside r X) a b → b ∉ Y →
      Relation.TransGen (Outside r Y) a b := by
    intro a b hab
    induction hab with
    | single hstep => exact fun hb => .single ⟨hstep.1, hstart hstep, hb⟩
    | tail _ hstep ih => exact fun hb => (ih (hstart hstep)).tail ⟨hstep.1, hstart hstep, hb⟩
  intro a hcycle
  obtain ⟨b, hab, -⟩ := Relation.TransGen.head'_iff.mp hcycle
  exact h a (hpath hcycle (hstart hab))

/-- The elements that lead somewhere are enough. -/
lemma of_related (h : FeedbackSet r X) (hXY : ∀ a ∈ X, ∀ b, r a b → a ∈ Y) : FeedbackSet r Y :=
  h.drop fun a ha hY b hab => absurd (hXY a ha b hab) hY

/-- If no element of the set is on a cycle there are none. -/
lemma acyclic (h : FeedbackSet r X) (hX : ∀ x ∈ X, ¬Relation.TransGen r x x) : Acyclic r := by
  intro a hcycle
  -- the elements of a cycle are on it, so that they are not in the set
  have hout : ∀ {b}, Relation.ReflTransGen r a b → Relation.ReflTransGen r b a → b ∉ X :=
    fun hab hba hb => hX _ hb ((hcycle.trans_right hba).trans_left hab)
  have hpath : ∀ {b}, Relation.TransGen r a b → Relation.ReflTransGen r b a →
      Relation.TransGen (Outside r X) a b := by
    intro b hab
    induction hab with
    | single hstep =>
      exact fun hba => .single ⟨hstep, hout .refl (.head hstep hba), hout (.single hstep) hba⟩
    | tail hpath hstep ih =>
      intro hba
      exact (ih (.head hstep hba)).tail ⟨hstep, hout hpath.to_reflTransGen (.head hstep hba),
        hout (hpath.tail hstep).to_reflTransGen hba⟩
  exact h a (hpath hcycle .refl)

/-- An element that can be bypassed is on no cycle. -/
lemma acyclic_of_bypass {s : α} (h : FeedbackSet r {s}) (hself : ¬r s s)
    (hbypass : ∀ a b, r a s → r s b → Relation.TransGen (Outside r {s}) a b) : Acyclic r := by
  -- on a path from outside the last step may lead to `s`
  have hpath : ∀ {a b}, a ≠ s → Relation.TransGen r a b →
      b ≠ s ∧ Relation.TransGen (Outside r {s}) a b ∨
        b = s ∧ ∃ c, Relation.ReflTransGen (Outside r {s}) a c ∧ r c s := by
    intro a b ha hab
    have hne : ∀ {c}, Relation.ReflTransGen (Outside r {s}) a c → c ≠ s := by
      intro c hac
      obtain rfl | ⟨d, -, hdc⟩ := Relation.ReflTransGen.cases_tail hac
      · exact ha
      · exact hdc.2.2
    have hstep : ∀ {c d}, Relation.ReflTransGen (Outside r {s}) a c → r c d →
        d ≠ s ∧ Relation.TransGen (Outside r {s}) a d ∨
          d = s ∧ ∃ c, Relation.ReflTransGen (Outside r {s}) a c ∧ r c s := by
      intro c d hac hcd
      by_cases hd : d = s
      · exact .inr ⟨hd, c, hac, hd ▸ hcd⟩
      · exact .inl ⟨hd, Relation.TransGen.tail' hac ⟨hcd, hne hac, hd⟩⟩
    induction hab with
    | single hab => exact hstep .refl hab
    | tail _ hcd ih =>
      obtain ⟨-, hac⟩ | ⟨rfl, e, hae, hes⟩ := ih
      · exact hstep hac.to_reflTransGen hcd
      · have hed := hbypass e _ hes hcd
        refine .inl ⟨?_, Relation.TransGen.trans_right hae hed⟩
        rintro rfl
        exact hself hcd
  intro a hcycle
  by_cases ha : a = s
  · -- the cycle starts at `s`: turn it to the next element
    subst ha
    obtain ⟨b, hab, hba⟩ := Relation.TransGen.head'_iff.mp hcycle
    have hb : b ≠ a := fun heq => hself (heq ▸ hab)
    obtain ⟨-, hbb⟩ | ⟨hbs, -⟩ := hpath hb (Relation.TransGen.tail' hba hab)
    · exact h b hbb
    · exact hb hbs
  · obtain ⟨-, haa⟩ | ⟨has, -⟩ := hpath ha hcycle
    · exact h a haa
    · exact ha has

end FeedbackSet

end GenMC
