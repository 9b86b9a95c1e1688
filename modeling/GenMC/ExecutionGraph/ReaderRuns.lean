import GenMC.ExecutionGraph.Restriction

/-!
# Runs of mutators

The mutators of a graph as data, and what holds of the reader lists after any run of them.
-/

namespace GenMC

namespace ExecutionGraph

/-- A call of a mutator. -/
inductive Mutation
  | addLabelToGraph (lab : EventLabel)
  | addNewThread
  | setRf (r : Event) (rf : Option Event)
  | addStoreToCOBefore (w succ : Event)
  | addStoreToCOAfter (w pred : Event)
  | moveStoreCOBefore (w succ : Event)
  | moveStoreCOAfter (w pred : Event)
  | removeLast (t : ℕ)
  | cutToStamp (st : ℕ)

/-- The effect of a call. -/
def Mutation.apply (g : ExecutionGraph) : Mutation → Option ExecutionGraph
  | .addLabelToGraph lab => g.addLabelToGraph lab
  | .addNewThread => some g.addNewThread
  | .setRf r rf => g.setRf r rf
  | .addStoreToCOBefore w succ => g.addStoreToCOBefore w succ
  | .addStoreToCOAfter w pred => g.addStoreToCOAfter w pred
  | .moveStoreCOBefore w succ => g.moveStoreCOBefore w succ
  | .moveStoreCOAfter w pred => g.moveStoreCOAfter w pred
  | .removeLast t => g.removeLast t
  | .cutToStamp st => g.cutToStamp st

/-- The calls of the runs: the labels that are added are fresh, and `removeLast` is not called on a
write. -/
def Mutation.Admissible (g : ExecutionGraph) : Mutation → Prop
  | .addLabelToGraph lab => lab.Fresh
  | .removeLast t => g.isa LabelBody.isWrite (g.lastPos t) = false
  | _ => True

/-- The calls that keep the reader lists: `removeLast` is called neither on the initializer nor on a
read from it. -/
def Mutation.SparesInit (g : ExecutionGraph) : Mutation → Prop
  | .removeLast t => g.lastPos t ≠ .init ∧ g.rfOf (g.lastPos t) ≠ some .init
  | _ => True

instance (g : ExecutionGraph) : DecidablePred (Mutation.Admissible g)
  | .addLabelToGraph lab => inferInstanceAs (Decidable lab.Fresh)
  | .removeLast _ => inferInstanceAs (Decidable (_ = false))
  | .addNewThread | .setRf .. | .addStoreToCOBefore .. | .addStoreToCOAfter ..
  | .moveStoreCOBefore .. | .moveStoreCOAfter .. | .cutToStamp _ => isTrue trivial

instance (g : ExecutionGraph) : DecidablePred (Mutation.SparesInit g)
  | .removeLast _ => inferInstanceAs (Decidable (_ ∧ _))
  | .addLabelToGraph _ | .addNewThread | .setRf .. | .addStoreToCOBefore ..
  | .addStoreToCOAfter .. | .moveStoreCOBefore .. | .moveStoreCOAfter .. | .cutToStamp _ =>
    isTrue trivial

/-- One call of a mutator keeps the reader lists. -/
lemma Mutation.readerLists {g g' : ExecutionGraph} {m : Mutation} (hg : ReaderLists g)
    (hm : m.Admissible g ∧ m.SparesInit g) (h : m.apply g = some g') : ReaderLists g' := by
  cases m with
  | addLabelToGraph lab => exact hg.addLabelToGraph hm.1 h
  | addNewThread => exact Option.some.inj h ▸ hg.addNewThread
  | setRf r rf => exact hg.setRf h
  | addStoreToCOBefore w succ => exact hg.turnsCO (addStoreToCOBefore_turnsCO h)
  | addStoreToCOAfter w pred => exact hg.turnsCO (addStoreToCOAfter_turnsCO h)
  | moveStoreCOBefore w succ => exact hg.turnsCO (moveStoreCOBefore_turnsCO h)
  | moveStoreCOAfter w pred => exact hg.turnsCO (moveStoreCOAfter_turnsCO h)
  | removeLast t => exact hg.removeLast h hm.1 hm.2.1 hm.2.2
  | cutToStamp st => exact hg.cutToStamp h

/-- **Reader lists.**  In every run of mutators from the initial graph that does not remove the
initializer or a read from it, the reader lists agree with the sources of the reads. -/
theorem run_readersExact {ms : List Mutation} {g : ExecutionGraph}
    (hms : PartialRun.Meets Mutation.apply (fun g m => m.Admissible g ∧ m.SparesInit g) initial ms)
    (hrun : PartialRun.exec Mutation.apply initial ms = some g) : ReadersExact g :=
  (PartialRun.exec_invariant (fun _ _ _ hg hm h => Mutation.readerLists hg hm h)
    readerLists_initial hms hrun).exact

/-- A store, a load that first reads from the initializer and then from the store, a second store
that is moved, and both ways of taking labels back. -/
def smallRun : List Mutation :=
  let x : MemAccess := { addr := ⟨8⟩ }
  [.addLabelToGraph { pos := ⟨0, 1⟩, body := .write .write x [] },
    .addStoreToCOAfter ⟨0, 1⟩ .init,
    .addNewThread,
    .addLabelToGraph { pos := ⟨1, 0⟩, body := .threadStart .init },
    .addLabelToGraph { pos := ⟨1, 1⟩, body := .read .read x none false },
    .setRf ⟨1, 1⟩ (some .init),
    .setRf ⟨1, 1⟩ (some ⟨0, 1⟩),
    .addLabelToGraph { pos := ⟨0, 2⟩, body := .write .write x [] },
    .addStoreToCOAfter ⟨0, 2⟩ .init,
    .moveStoreCOAfter ⟨0, 2⟩ ⟨0, 1⟩,
    .removeLast 1,
    .cutToStamp 1]

/-- The small run ends in a graph whose reader lists are exact. -/
theorem smallRun_readersExact :
    ∃ g, PartialRun.exec Mutation.apply initial smallRun = some g ∧ ReadersExact g := by
  obtain ⟨g, hg⟩ : ∃ g, PartialRun.exec Mutation.apply initial smallRun = some g :=
    Option.isSome_iff_exists.mp (by decide)
  exact ⟨g, hg, run_readersExact (by decide) hg⟩

/-- A load that reads from the initializer is added and removed again. -/
def removedInitRead : List Mutation :=
  [.addLabelToGraph { pos := ⟨0, 1⟩, body := .read .read { addr := ⟨8⟩ } none false },
    .setRf ⟨0, 1⟩ (some .init),
    .removeLast 0]

/-- The removed load stays in the list of the initial readers of its location. -/
theorem removedInitRead_not_readersExact :
    ¬ ∀ ms g, PartialRun.Meets Mutation.apply Mutation.Admissible initial ms →
      PartialRun.exec Mutation.apply initial ms = some g → ReadersExact g := by
  intro hall
  obtain ⟨g, hg⟩ : ∃ g, PartialRun.exec Mutation.apply initial removedInitRead = some g :=
    Option.isSome_iff_exists.mp (by decide)
  have hexact := hall removedInitRead g (by decide) hg
  have hlisted : ((PartialRun.exec Mutation.apply initial removedInitRead).map fun g =>
      (g.initReaders ⟨8⟩, g.isa LabelBody.isRead ⟨0, 1⟩)) = some ([⟨0, 1⟩], false) := by decide
  rw [hg, Option.map_some, Option.some.injEq, Prod.mk.injEq] at hlisted
  have hread := hexact.initReaders ⟨8⟩ ⟨0, 1⟩ (by rw [hlisted.1]; exact List.mem_singleton.mpr rfl)
  rw [hlisted.2] at hread
  cases hread

end ExecutionGraph

end GenMC
