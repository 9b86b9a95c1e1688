import GenMC.Lib.Process
import GenMC.Verification.CachedGraph

/-!
# What the cache holds

In every state of the driver, the labels that are cached for a thread and values are the ones that
the interpreter makes from the last event with a value on, one after the other (`CacheOk`).  This
rests on the graphs: up to its first hole, a thread has the labels that the interpreter makes for
the values that the thread has got in this graph (`GraphOk`), although revisits change the values.

The cached labels are those of the interpreter as the handlers have completed them
(`DriverLabel.recorded`).  What a handler fills in may depend on the graph.  `AddOk` says of the
step that adds a label that this cannot make a difference later.
-/

namespace GenMC

namespace DriverLabel

variable {A : Type} (init : SAddr → SVal) (lab : DriverLabel A)

/-- The value of a write if the barriers are initialized with the given values. -/
def settledVal : SVal :=
  if lab.body.isBIncFaiWrite && decide (lab.val = 0) then
    (lab.body.addr.map init).getD lab.val else lab.val

/-- A label of the interpreter as it is cached. -/
def recorded (childId : ℕ) : DriverLabel A :=
  { lab with val := lab.settledVal init, body := lab.body.setChildId childId }

/-- The label is cached for the one of the interpreter. -/
def IsRecorded (lab cLab : DriverLabel A) : Prop := ∃ childId, cLab = lab.recorded init childId

@[simp] lemma hasValue_setChildId (b : LabelBody) (childId : ℕ) :
    (b.setChildId childId).hasValue = b.hasValue := by
  cases b with
  | plain kind => cases kind <;> rfl
  | _ => rfl

@[simp] lemma isRead_setChildId (b : LabelBody) (childId : ℕ) :
    (b.setChildId childId).isRead = b.isRead := by
  cases b with
  | plain kind => cases kind <;> rfl
  | _ => rfl

@[simp] lemma isEmpty_setChildId (b : LabelBody) (childId : ℕ) :
    (b.setChildId childId).isEmpty = b.isEmpty := by
  cases b with
  | plain kind => cases kind <;> rfl
  | _ => rfl

@[simp] lemma isOptional_setChildId (b : LabelBody) (childId : ℕ) :
    (b.setChildId childId).isOptional = b.isOptional := by
  cases b with
  | plain kind => cases kind <;> rfl
  | _ => rfl

@[simp] lemma isBIncFaiWrite_setChildId (b : LabelBody) (childId : ℕ) :
    (b.setChildId childId).isBIncFaiWrite = b.isBIncFaiWrite := by
  cases b with
  | plain kind => cases kind <;> rfl
  | _ => rfl

@[simp] lemma addr_setChildId (b : LabelBody) (childId : ℕ) :
    (b.setChildId childId).addr = b.addr := by
  cases b with
  | plain kind => cases kind <;> rfl
  | _ => rfl

@[simp] lemma joinedThread_setChildId (b : LabelBody) (childId : ℕ) :
    (b.setChildId childId).joinedThread = b.joinedThread := by
  cases b with
  | plain kind => cases kind <;> rfl
  | _ => rfl

@[simp] lemma setChildId_setChildId (b : LabelBody) (childId childId' : ℕ) :
    (b.setChildId childId).setChildId childId' = b.setChildId childId' := by
  cases b with
  | plain kind => cases kind <;> rfl
  | _ => rfl

/-- The identifier of a created thread is none of the fields that `reset` takes back. -/
lemma mapFields_setChildId (b : LabelBody) (childId : ℕ) (m : FieldMap) :
    (b.setChildId childId).mapFields m = (b.mapFields m).setChildId childId := by
  cases b with
  | plain kind => cases kind <;> rfl
  | _ => rfl

end DriverLabel

/-! ## Graphs -/

namespace DriverGraph

variable {A : Type} (prog : ThreadProgram A) (init : SAddr → SVal)

/-- The label at an index of a thread is the one of the interpreter, for the values that the thread
has got. -/
def OfProgram (g : DriverGraph A) (t i : ℕ) (lab : DriverLabel A) : Prop :=
  ∃ pLab, prog.next t i (g.valsUpTo t i) = some pLab ∧ pLab.body.hasValue = lab.body.hasValue ∧
    (lab.body.hasValue = false → pLab.IsRecorded init lab.reset)

/-- The label is the one of the interpreter, or it blocks the thread. -/
def Follows (g : DriverGraph A) (t i : ℕ) : Prop :=
  ∀ lab, g.getEventLabel ⟨t, i⟩ = some lab → g.OfProgram prog init t i lab ∨
    (lab.body.isBlock = true ∧ g.getEventLabel ⟨t, i + 1⟩ = none)

/-- The labels of the graph are those of the interpreter. -/
structure GraphOk (g : DriverGraph A) : Prop where
  /-- Every label is where it says it is. -/
  positioned : g.Positioned
  /-- Threads begin with a begin label. -/
  begins : ∀ t lab, g.getEventLabel ⟨t, 0⟩ = some lab → lab.body.isThreadStart = true
  /-- Up to the first hole, the labels are those of the interpreter. -/
  follows : ∀ t i, 0 < i → g.Filled t i → g.Follows prog init t i

/-- The barriers that a thread of the program can complete have the given initial values. -/
def BarriersOk (f : SAddr → SVal) : Prop :=
  ∀ t i vals lab a, prog.next t i vals = some lab → lab.body.isBIncFaiWrite = true →
    lab.val = 0 → lab.body.addr = some a → f a = init a

/-- The last label of the thread does not block it. -/
def Unblocked (g : DriverGraph A) (t : ℕ) : Prop :=
  ∀ i lab, g.getEventLabel ⟨t, i⟩ = some lab → g.getEventLabel ⟨t, i + 1⟩ = none →
    lab.body.isBlock = false

variable {prog init} {g : DriverGraph A} {t n : ℕ}

/-- The last label of the thread. -/
lemma unblocked_of_isLastBlock (h : g.isLastBlock t = false) : g.Unblocked t := by
  intro i lab hlab hnext
  unfold getEventLabel at hlab hnext
  dsimp only at hlab hnext
  obtain ⟨hi, hget⟩ := List.getElem?_eq_some_iff.mp hlab
  rw [List.getElem?_eq_none_iff] at hnext
  unfold isLastBlock at h
  rw [List.getLast?_eq_getElem?, show (g.thread t).length - 1 = i by omega, hlab] at h
  exact h

/-- **The value prefix of a graph.**  In a thread that is not blocked, the values before an index
determine where the labels without values begin. -/
lemma GraphOk.resumes (h : g.GraphOk prog init) (hunblocked : g.Unblocked t) (hn : 0 < n)
    (hlabels : ∀ j < n, (g.getEventLabel ⟨t, j⟩).isSome) (hfilled : g.Filled t (n - 1)) :
    ∃ b, b = (g.lastValued t n).index + 1 ∧ b ≤ n ∧
      Resumes (prog.next t) (fun lab => lab.body.hasValue) (g.valsUpTo t n) b ∧
      ∀ j, b ≤ j → j < n → ∃ lab pLab, g.getEventLabel ⟨t, j⟩ = some lab ∧
        prog.next t j (g.valsUpTo t n) = some pLab ∧ pLab.body.hasValue = false ∧
        lab.body.hasValue = false ∧ pLab.IsRecorded init lab.reset := by
  -- all labels before the index are those of the interpreter
  have hfollows : ∀ i, 0 < i → i < n → ∃ lab, g.getEventLabel ⟨t, i⟩ = some lab ∧
      g.OfProgram prog init t i lab := by
    intro i hi hin
    obtain ⟨lab, hlab⟩ := Option.isSome_iff_exists.mp (hlabels i hin)
    rcases h.follows t i hi (hfilled.mono (by omega)) lab hlab with hprog | ⟨hblock, hend⟩
    · exact ⟨lab, hlab, hprog⟩
    · rw [hunblocked i lab hlab hend] at hblock
      cases hblock
  clear hfilled
  induction n with
  | zero => omega
  | succ n ih =>
    rcases Nat.eq_zero_or_pos n with rfl | hpos
    · -- the begin of the thread
      obtain ⟨lab, hlab⟩ := Option.isSome_iff_exists.mp (hlabels 0 (by omega))
      have hvalue : lab.body.hasValue = true := by
        unfold LabelBody.hasValue
        rw [h.begins t lab hlab]
        rfl
      obtain ⟨v, hv⟩ := valsUpTo_succ_of_hasValue hlab hvalue
      refine ⟨1, ?_, le_rfl, ?_, fun j hj hj' => by omega⟩
      · rw [lastValued, hlab, Option.any_some, if_pos hvalue]
      · rw [hv]
        exact .start v
    · obtain ⟨b, hb, hbn, hres, hquiet⟩ := ih hpos (fun j hj => hlabels j (by omega))
        fun i hi hin => hfollows i hi (by omega)
      obtain ⟨lab, hlab, pLab, hnext, hvalue, hrec⟩ := hfollows n hpos (by omega)
      cases hlv : lab.body.hasValue with
      | true =>
        obtain ⟨v, hv⟩ := valsUpTo_succ_of_hasValue hlab hlv
        refine ⟨n + 1, ?_, le_rfl, ?_, fun j hj hj' => by omega⟩
        · rw [lastValued, hlab, Option.any_some, if_pos hlv]
        · rw [hv]
          refine .answer v hres hbn (fun k hk hkn => ?_) hnext (hvalue.trans hlv)
          obtain ⟨-, pLab', -, hnext', hvalue', -, -⟩ := hquiet k hk hkn
          exact ⟨pLab', hnext', hvalue'⟩
      | false =>
        rw [valsUpTo_succ_of_not_hasValue hlab hlv]
        refine ⟨b, ?_, by omega, hres, fun j hj hjn => ?_⟩
        · rw [lastValued, hlab, Option.any_some, hlv]
          exact hb
        · rcases Nat.lt_succ_iff_lt_or_eq.mp hjn with hlt | rfl
          · exact hquiet j hj hlt
          · exact ⟨lab, pLab, hlab, hnext, hvalue.trans hlv, hlv, hrec hlv⟩

end DriverGraph

/-! ## The cache -/

namespace CachingDriver

open DriverGraph

variable {A : Type} (prog : ThreadProgram A) (init : SAddr → SVal)

/-- The cached labels are those that the interpreter makes after the last event with a value. -/
def CacheOk (cache : ValuePrefixes A) : Prop :=
  ∀ t vals labs, cache t vals = some labs → Recording (prog.next t)
    (fun lab => lab.body.hasValue) (fun pLab cLab => pLab.IsRecorded init cLab) vals labs

variable {prog init} {cache cache' : ValuePrefixes A} {g : DriverGraph A} {t n : ℕ}
  {lab : DriverLabel A}

/-- A new entry. -/
lemma CacheOk.insertPrefix (h : CacheOk prog init cache) {vals : List SVal}
    {labs : List (DriverLabel A)} (hnew : Recording (prog.next t) (fun lab => lab.body.hasValue)
      (fun pLab cLab => pLab.IsRecorded init cLab) vals labs) :
    CacheOk prog init (insertPrefix cache t vals labs) := by
  intro t' vals' labs' hlabs
  unfold CachingDriver.insertPrefix at hlabs
  split at hlabs
  next heq =>
    obtain ⟨rfl, rfl⟩ := heq
    exact Option.some.inj hlabs ▸ hnew
  next => exact h t' vals' labs' hlabs

/-- The positions of cached labels. -/
lemma CacheOk.pos_eq (h : CacheOk prog init cache) {vals : List SVal} {res : List (DriverLabel A)}
    (hres : cache t vals = some res) {b : ℕ}
    (hb : Resumes (prog.next t) (fun lab => lab.body.hasValue) vals b) {k : ℕ}
    (hk : res[k]? = some lab) : lab.pos = ⟨t, b + k⟩ ∧ ∃ pLab,
      prog.next t (b + k) vals = some pLab ∧ pLab.IsRecorded init lab ∧
      (k + 1 < res.length → pLab.body.hasValue = false) := by
  obtain ⟨-, b', hb', hlabs⟩ := h t vals res hres
  obtain rfl := hb.unique hb'
  obtain ⟨pLab, hnext, hrec, hvalue⟩ := hlabs k lab hk
  refine ⟨?_, pLab, hnext, hrec, hvalue⟩
  obtain ⟨childId, rfl⟩ := hrec
  have hpos : pLab.pos = ⟨t, b + k⟩ := prog.pos hnext
  exact hpos

/-- **`cacheEventLabel`** keeps the cache right if the new label is cached as it should be. -/
theorem cacheEventLabel_ok (hg : g.GraphOk prog init) (hunblocked : g.Unblocked t) (hn : 0 < n)
    (hlabels : ∀ j < n, (g.getEventLabel ⟨t, j⟩).isSome) (hfilled : g.Filled t (n - 1))
    (hcache : CacheOk prog init cache) {pLab : DriverLabel A}
    (hnext : prog.next t n (g.valsUpTo t n) = some pLab) (hpos : lab.pos = ⟨t, n⟩)
    (hrec : (∀ res, cache t (g.valsUpTo t n) = some res → ∀ cLab ∈ res, cLab.pos.index < n) →
      pLab.IsRecorded init lab.reset)
    (h : cacheEventLabel g cache lab = some cache') : CacheOk prog init cache' := by
  obtain ⟨b, hb, hbn, hres, hquiet⟩ := hg.resumes hunblocked hn hlabels hfilled
  have hquiet' : Quiet (prog.next t) (fun lab => lab.body.hasValue) (g.valsUpTo t n) b n := by
    intro k hk hkn
    obtain ⟨-, qLab, -, hq, hvalue, -, -⟩ := hquiet k hk hkn
    exact ⟨qLab, hq, hvalue⟩
  -- the labels that are cloned
  have hclones : ∀ {i m labs}, b ≤ i → i + m = n + 1 →
      (pLab.IsRecorded init lab.reset) →
      (List.range' i m).mapM (fun i => if i = lab.pos.index then some lab.clone.reset
        else (g.getEventLabel ⟨lab.pos.thread, i⟩).map fun cLab => cLab.clone.reset) = some labs →
      labs.length = m ∧ ∀ k c, labs[k]? = some c → ∃ qLab,
        prog.next t (i + k) (g.valsUpTo t n) = some qLab ∧ qLab.IsRecorded init c ∧
        (k + 1 < labs.length → qLab.body.hasValue = false) := by
    intro i m labs hbi him hrecorded hlabs
    obtain ⟨hlen, hget⟩ := PartialRun.getElem?_of_mapM hlabs
    rw [List.length_range'] at hlen
    refine ⟨hlen, fun k c hk => ?_⟩
    obtain ⟨a, ha, hf⟩ := hget k c hk
    obtain ⟨hkm, rfl⟩ := List.getElem?_eq_some_iff.mp ha
    rw [List.length_range'] at hkm
    rw [List.getElem_range', hpos] at hf
    dsimp only at hf
    rw [Nat.one_mul] at hf
    by_cases hin : i + k = n
    · rw [if_pos hin] at hf
      obtain rfl := Option.some.inj hf
      rw [DriverLabel.reset_clone, hin]
      exact ⟨pLab, hnext, hrecorded, fun hlt => by omega⟩
    · rw [if_neg hin] at hf
      obtain ⟨cLab, hcLab, rfl⟩ := Option.map_eq_some_iff.mp hf
      obtain ⟨lab', qLab, hlab', hq, hvalue, -, hqrec⟩ := hquiet (i + k) (by omega) (by omega)
      obtain rfl := Option.some.inj (hcLab.symm.trans hlab')
      rw [DriverLabel.reset_clone]
      exact ⟨qLab, hq, hqrec, fun _ => hvalue⟩
  unfold cacheEventLabel at h
  rw [hpos, extractValPrefix_eq hg.positioned hlabels, Option.bind_eq_bind, Option.bind_some] at h
  dsimp only at h
  cases hdata : cache t (g.valsUpTo t n) with
  | none =>
    rw [hdata] at h
    simp only [Option.bind_none, Option.map_none, Option.getD_none, Option.any_none,
      Bool.false_eq_true, if_false, Option.bind_eq_bind] at h
    obtain ⟨labs, hlabs, hinsert⟩ := Option.bind_eq_some_iff.mp h
    obtain rfl := Option.some.inj hinsert
    have hrecorded := hrec fun res hres' => by
      rw [hdata] at hres'
      cases hres'
    rw [← hb] at hlabs
    obtain ⟨hlen, hget⟩ := hclones (i := b) (m := n - (g.lastValued t n).index) le_rfl (by omega)
      hrecorded (by rw [hpos]; exact hlabs)
    refine hcache.insertPrefix (.of_resumes hres (fun hnil => ?_) hget)
    rw [hnil, List.length_nil] at hlen
    omega
  | some res =>
    obtain ⟨hne, b', hb', hlabs'⟩ := hcache t _ res hdata
    obtain rfl := hres.unique hb'
    obtain ⟨bLab, hbLab⟩ : ∃ bLab, res.getLast? = some bLab :=
      ⟨_, List.getLast?_eq_some_getLast hne⟩
    have hlenpos := List.length_pos_iff.mpr hne
    have hback : bLab.pos = ⟨t, b + (res.length - 1)⟩ := by
      rw [List.getLast?_eq_getElem?] at hbLab
      exact (hcache.pos_eq hdata hres hbLab).1
    rw [hdata, Option.bind_some, hbLab] at h
    simp only [Option.any_some, Option.map_some, Option.getD_some, hback, decide_eq_true_eq] at h
    split at h
    next => exact Option.some.inj h ▸ hcache
    next hlt =>
      obtain ⟨labs, hlabs, hrest⟩ := Option.bind_eq_some_iff.mp h
      split at hrest
      next => cases hrest
      next heq =>
        obtain rfl := Option.some.inj hrest
        have hrecorded := hrec fun res' hres' cLab hcLab => by
          obtain rfl := Option.some.inj (hdata.symm.trans hres')
          obtain ⟨k, hk⟩ := List.getElem?_of_mem hcLab
          have hpos' := (hcache.pos_eq hdata hres hk).1
          have hklt := (List.getElem?_eq_some_iff.mp hk).1
          rw [hpos']
          change b + k < n
          omega
        have hlen' : b + res.length = n := by omega
        obtain ⟨hlen, hget⟩ := hclones (i := b + (res.length - 1) + 1)
          (m := n - (b + (res.length - 1))) (by omega) (by omega) hrecorded (by
            rw [hpos]
            exact hlabs)
        refine hcache.insertPrefix (.append (hcache t _ res hdata) hres (hlen' ▸ hquiet') ?_)
        intro k c hk
        obtain ⟨qLab, hq, hqrec⟩ := hget k c hk
        refine ⟨qLab, ?_, hqrec⟩
        rwa [show b + (res.length - 1) + 1 + k = b + res.length + k by omega] at hq

end CachingDriver

end GenMC
