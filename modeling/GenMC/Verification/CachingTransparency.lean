import GenMC.Verification.CacheReplay

/-!
# Instruction caching is transparent

Over whole runs of the driver, the cache holds the labels that the interpreter makes, and a thread
that is scheduled from the cache gets the labels that the interpreter would have added
(`instructionCaching_transparent`).  The steps have to meet `OpOk` and `ScheduleOk`.  Where a thread
has no holes and nothing is kept behind a changed label, little is left of these conditions
(`StepOk.of_plain`).

One condition that is left is about optional blocks: a block that is cached while another one has
been expanded is remembered as one that must not be expanded, also for graphs in which no block has
been expanded (`cached_optional_not_expandable`).
-/

namespace GenMC

open DriverGraph

/-- A step of the driver, or a thread that is scheduled from the cache if this is possible. -/
inductive CachingStep (A : Type)
  /-- A step that does not use the cache. -/
  | op (op : DriverOp A)
  /-- A thread is scheduled. -/
  | schedule (t : ℕ)

namespace CachingDriver

variable {A : Type} (prog : ThreadProgram A) (init : SAddr → SVal)
  (choose : CachingDriver A → Event → SVal)
  (rest : CachingDriver A → Event → List (DriverOp A)) (stops : CachingDriver A → Bool)

/-- The driver when the exploration starts. -/
def initial (value : Event → SVal) (barrierInit : SAddr → SVal) : CachingDriver A where
  execStack := [{
    events := [[{ pos := .init, body := .init }]]
    value := value
    barrierInit := barrierInit }]
  seenPrefixes := fun _ _ => none
  currentAnnot := fun _ => none

/-- The steps of the driver. -/
def applyStep (s : CachingDriver A) : CachingStep A → Option (CachingDriver A)
  | .op op => applyOp prog s op
  | .schedule t => (tryOptimizeScheduling prog choose rest stops s t).map Prod.snd

/-- The step may be taken. -/
def StepOk (s : CachingDriver A) : CachingStep A → Prop
  | .op op => OpOk prog init s op
  | .schedule t => ScheduleOk prog init choose rest stops s t

variable {prog init choose rest stops} {s s' : CachingDriver A} {g g' : DriverGraph A} {t : ℕ}
  {v : SVal}

/-- In the beginning the graph and the cache are right. -/
lemma stateOk_initial {value : Event → SVal} {barrierInit : SAddr → SVal}
    (hbarriers : BarriersOk prog init barrierInit) :
    (initial value barrierInit).StateOk prog init := by
  refine ⟨fun g hg => ?_, fun t vals labs hlabs => by cases hlabs⟩
  obtain rfl := List.mem_singleton.mp hg
  -- the initial label is the only one
  have hlabel : ∀ e lab, DriverGraph.getEventLabel
      { events := [[{ pos := .init, body := .init }]], value := value,
        barrierInit := barrierInit } e = some lab →
      e = .init ∧ lab = ({ pos := .init, body := .init } : DriverLabel A) := by
    rintro ⟨t, i⟩ lab hlab
    match t, i with
    | 0, 0 => exact ⟨rfl, (Option.some.inj hlab).symm⟩
    | 0, i + 1 => cases hlab
    | t + 1, i => cases hlab
  refine ⟨⟨fun e lab hlab => ?_, fun t lab hlab => ?_, fun t i hi hfilled => ?_⟩, hbarriers⟩
  · obtain ⟨rfl, rfl⟩ := hlabel e lab hlab
    rfl
  · obtain ⟨-, rfl⟩ := hlabel _ lab hlab
    rfl
  · obtain ⟨lab, hlab, -⟩ := hfilled i hi le_rfl
    have hindex := congrArg Event.index (hlabel _ lab hlab).1
    exact absurd hindex hi.ne'

/-! ## Steps that keep nothing behind a change -/

/-- The step changes the end of a thread, while no optional block has been expanded. -/
def isPlain (s : CachingDriver A) : DriverOp A → Bool
  | .add t _ => s.getGraph.any fun g =>
    decide (g.findNextLabelToAdd t = some ⟨t, (g.thread t).length⟩) && !g.isLastBlock t &&
      !g.hasUnexpandable
  | .setValue e _ => s.getGraph.any fun g => (g.getEventLabel e.next).isNone
  | .expand e => s.getGraph.any fun g => (g.getEventLabel e.next).isNone
  | .touch _ _ => false
  | .blockThread bLab => bLab.body.isBlock && decide (0 < bLab.pos.index) &&
    s.getGraph.any fun g => (g.getEventLabel bLab.pos.next).isNone && !g.isLastBlock bLab.pos.thread
  | .setBarrierInit _ => false
  | _ => true

/-- Nothing is kept behind the last label. -/
lemma keptAfter_of_none {e : Event} (h : g.getEventLabel e.next = none) :
    KeptAfter prog init g e.thread e.index := by
  intro k hk hfilled
  obtain ⟨lab, hlab, -⟩ := hfilled (e.index + 1) (Nat.succ_pos _) hk
  change g.getEventLabel e.next = some lab at hlab
  rw [h] at hlab
  cases hlab

/-- The next label of a thread goes to its end. -/
lemma AddOk.of_end (hg : s.getGraph = some g)
    (hend : g.findNextLabelToAdd t = some ⟨t, (g.thread t).length⟩)
    (hunblocked : g.isLastBlock t = false) (hoptional : g.hasUnexpandable = false) :
    AddOk prog init s t v := by
  have hnext : ∀ {g₁ n vals lab}, NextLabel prog s t g₁ n vals lab →
      g₁ = g ∧ n = (g.thread t).length ∧ lab.pos = ⟨t, n⟩ := by
    intro g₁ n vals lab hnext
    obtain ⟨hg₁, hfind, -, hlab⟩ := hnext
    obtain rfl := Option.some.inj (hg₁.symm.trans hg)
    exact ⟨rfl, congrArg Event.index (Option.some.inj (hfind.symm.trans hend)), prog.pos hlab⟩
  have hnone : g.getEventLabel ⟨t, (g.thread t).length + 1⟩ = none :=
    List.getElem?_eq_none (Nat.le_succ _)
  refine ⟨fun g₁ hg₁ => ?_, fun g₁ n vals lab h _ => ?_, fun g₁ n vals lab s' g' h hs' hg' => ?_,
    fun g₁ n vals lab h _ hun => ?_⟩
  · obtain rfl := Option.some.inj (hg₁.symm.trans hg)
    exact unblocked_of_isLastBlock hunblocked
  · obtain ⟨rfl, rfl, -⟩ := hnext h
    exact hnone
  · obtain ⟨rfl, rfl, -⟩ := hnext h
    obtain ⟨g₂, n₂, vals₂, lab₂, h₂, hhandle⟩ := interpretLabel_eq_some_iff.mp hs'
    obtain ⟨rfl, rfl, hpos⟩ := hnext h₂
    obtain ⟨m, hm, hmpos, -⟩ := findNextLabelToAdd_spec hend
    have hne : (⟨t, (g₂.thread t).length + 1⟩ : Event) ≠ lab₂.pos := by
      intro heq
      exact Nat.succ_ne_self _ (congrArg Event.index (heq.trans hpos))
    refine keptAfter_of_none (e := ⟨t, (g₂.thread t).length⟩) ?_
    rcases handle_eq_some hg hhandle with hadded | ⟨-, childId, g₃, hblock, rfl⟩
    · have hindex : 0 < (g₂.complete lab₂.annot lab₂).pos.index := by
        change 0 < lab₂.pos.index
        rw [hpos]
        exact (congrArg Event.index hm) ▸ hmpos
      obtain ⟨cache, g₃, -, rfl, hget, -⟩ := addLabelToGraph_eq_some hg hindex hadded
      obtain rfl := Option.some.inj hg'
      exact (hget _).trans ((if_neg hne).trans hnone)
    · obtain rfl := Option.some.inj hg'
      exact ((blockThread_spec hblock).1 _).trans ((if_neg hne).trans hnone)
  · obtain ⟨rfl, -, -⟩ := hnext h
    rw [hoptional] at hun
    cases hun

/-- **Such steps may be taken.** -/
lemma StepOk.of_isPlain {op : DriverOp A} (h : s.isPlain op = true) :
    StepOk prog init choose rest stops s (.op op) := by
  cases op with
  | add t v =>
    obtain ⟨g, hg, hplain⟩ := (Option.any_eq_true _ _).mp h
    simp only [Bool.and_eq_true, decide_eq_true_eq, Bool.not_eq_true'] at hplain
    exact AddOk.of_end hg hplain.1.1 hplain.1.2 hplain.2
  | setValue e v =>
    obtain ⟨g, hg, hnone⟩ := (Option.any_eq_true _ _).mp h
    intro g₁ hg₁
    obtain rfl := Option.some.inj (hg₁.symm.trans hg)
    exact keptAfter_of_none (Option.isNone_iff_eq_none.mp hnone)
  | expand e =>
    obtain ⟨g, hg, hnone⟩ := (Option.any_eq_true _ _).mp h
    intro s' g' hs' hg'
    obtain ⟨g₁, hg₁, rfl⟩ := Option.map_eq_some_iff.mp hs'
    obtain rfl := Option.some.inj (hg₁.symm.trans hg)
    obtain rfl := Option.some.inj hg'
    refine keptAfter_of_none ?_
    rw [getEventLabel_updateLabel, Option.isNone_iff_eq_none.mp hnone]
    split <;> rfl
  | touch e f => cases h
  | blockThread bLab =>
    obtain ⟨hends, hany⟩ := (Bool.and_eq_true _ _).mp h
    obtain ⟨hisBlock, hindex⟩ := (Bool.and_eq_true _ _).mp hends
    obtain ⟨g, hg, hplain⟩ := (Option.any_eq_true _ _).mp hany
    obtain ⟨hnone, hun⟩ := (Bool.and_eq_true _ _).mp hplain
    refine ⟨hisBlock, of_decide_eq_true hindex, fun g₁ hg₁ => ?_⟩
    obtain rfl := Option.some.inj (hg₁.symm.trans hg)
    exact ⟨Option.isNone_iff_eq_none.mp hnone,
      .inl (unblocked_of_isLastBlock ((Bool.not_eq_true' _).mp hun))⟩
  | setBarrierInit f => cases h
  | visit t annot => trivial
  | removeLast t => trivial
  | startThread tsLab v => trivial
  | cut keep => trivial
  | push => trivial
  | pop => trivial
  | extractState => trivial

variable (prog choose stops) in
/-- The interpreter adds labels at the end of the thread, and the handlers do nothing else. -/
def isPlainInterpretation (t : ℕ) : ℕ → CachingDriver A → Bool
  | 0, _ => true
  | m + 1, s => s.isPlain (.add t 0) && (s.currentAnnot t).isNone &&
    (interpret prog choose (fun _ _ => []) s t).all fun s' =>
      ends stops s' t || isPlainInterpretation t m s'

/-- Such labels may be added. -/
lemma InterpretationOk.of_isPlain {m : ℕ}
    (h : isPlainInterpretation prog choose stops t m s = true) :
    InterpretationOk prog init choose (fun _ _ => []) stops t m s := by
  induction m generalizing s with
  | zero => trivial
  | succ m ih =>
    simp only [isPlainInterpretation, Bool.and_eq_true] at h
    obtain ⟨⟨hplain, hannot⟩, hrest⟩ := h
    obtain ⟨g, hg, hadd⟩ := (Option.any_eq_true _ _).mp hplain
    simp only [Bool.and_eq_true, decide_eq_true_eq, Bool.not_eq_true'] at hadd
    refine ⟨fun _ _ _ _ _ => ⟨.of_end hg hadd.1.1 hadd.1.2 hadd.2,
      fun _ _ => Option.isNone_iff_eq_none.mp hannot, fun _ _ => trivial⟩, fun s' hs' hends => ?_⟩
    rw [hs', Option.all_some, hends, Bool.false_or] at hrest
    exact ih hrest

variable (prog choose stops) in
/-- The thread may be scheduled, and the interpreter adds labels at the end of the thread. -/
def isPlainSchedule (s : CachingDriver A) (t : ℕ) : Bool :=
  !ends stops s t && (s.cachedSuccessors t).all fun res =>
    isPlainInterpretation prog choose stops t res.length s

/-- Such a thread may be scheduled. -/
lemma ScheduleOk.of_isPlain (h : isPlainSchedule prog choose stops s t = true) :
    ScheduleOk prog init choose (fun _ _ => []) stops s t := by
  obtain ⟨hends, hall⟩ := (Bool.and_eq_true _ _).mp h
  refine ⟨(Bool.not_eq_true' _).mp hends, fun res hres => .of_isPlain ?_⟩
  rwa [hres, Option.all_some] at hall

/-- So may runs of such steps. -/
lemma meets_of_isPlain {ops : List (DriverOp A)}
    (h : PartialRun.Meets (applyOp prog) (fun s op => s.isPlain op = true) s ops) :
    PartialRun.Meets (applyStep prog choose rest stops) (StepOk prog init choose rest stops) s
      (ops.map .op) := by
  induction ops generalizing s with
  | nil => trivial
  | cons op ops ih => exact ⟨.of_isPlain h.1, fun s' hs' => ih (h.2 s' hs')⟩

/-! ## Runs -/

/-- The classes of the labels of the program.  The main thread creates three threads.  Thread 1
writes to `x`; thread 2 reads `x` and writes to `y`, in an optional block if it has read 1; thread 3
reads `y` and has an optional block if it has read 1. -/
def optionalBody : ℕ → ℕ → List SVal → Option LabelBody
  | 0, i, [_] => if i ≤ 3 then some (.plain (.threadCreate 0)) else none
  | 1, 1, [_] => some (.write .write { addr := ⟨16⟩ } [])
  | 2, 1, [_] => some (.read .read { addr := ⟨16⟩ } none false)
  | 2, 2, [_, v] =>
    if v = 1 then some (.plain .optional) else some (.write .write { addr := ⟨8⟩ } [])
  | 2, 3, [_, _, e] => if e = 1 then some (.write .write { addr := ⟨8⟩ } []) else none
  | 3, 1, [_] => some (.read .read { addr := ⟨8⟩ } none false)
  | 3, 2, [_, v] => if v = 1 then some (.plain .optional) else none
  | _, _, _ => none

/-- None of the labels is a hole, and all of them are new. -/
lemma optionalBody_fresh {i : ℕ} {vals : List SVal} {b : LabelBody}
    (h : optionalBody t i vals = some b) :
    b.isEmpty = false ∧ b.mapFields LabelBody.resetMap = b := by
  unfold optionalBody at h
  repeat' split at h
  all_goals first | cases h; done | (obtain rfl := Option.some.inj h; exact ⟨rfl, rfl⟩)

/-- The program; the writes write 1. -/
def optionalProgram : ThreadProgram Unit where
  next t i vals := (optionalBody t i vals).map fun b => { pos := ⟨t, i⟩, body := b, val := 1 }
  pos h := by
    obtain ⟨b, -, rfl⟩ := Option.map_eq_some_iff.mp h
    rfl
  reset h := by
    obtain ⟨b, hb, rfl⟩ := Option.map_eq_some_iff.mp h
    unfold DriverLabel.reset
    rw [(optionalBody_fresh hb).2]
  notEmpty h := by
    obtain ⟨b, hb, rfl⟩ := Option.map_eq_some_iff.mp h
    exact (optionalBody_fresh hb).1
  optional h := by
    obtain ⟨b, -, rfl⟩ := Option.map_eq_some_iff.mp h
    rfl

/-- The main thread creates the other ones. -/
def createThreads : List (DriverOp Unit) :=
  [.add 0 0, .startThread { pos := ⟨1, 0⟩, body := .threadStart ⟨0, 1⟩ } 0,
    .add 0 0, .startThread { pos := ⟨2, 0⟩, body := .threadStart ⟨0, 2⟩ } 0,
    .add 0 0, .startThread { pos := ⟨3, 0⟩, body := .threadStart ⟨0, 3⟩ } 0]

/-- Thread 2 reads 0 and writes; the write is removed by a restriction. -/
def restrictedRun : List (DriverOp Unit) :=
  createThreads ++ [.add 1 0, .add 2 0, .add 2 0, .cut fun e => e != ⟨2, 2⟩]

/-- All threads run.  Then thread 2 expands its optional block, and the block of thread 3 is cached
as one that must not be expanded.  Then the read of thread 2 gets the value 0, so that there is no
block in the graph, and thread 3 reads 1 again. -/
def expandedRun : List (DriverOp Unit) :=
  createThreads ++ [.add 1 0, .add 2 1, .add 2 0, .add 3 0, .cut fun e => e != ⟨3, 1⟩,
    .expand ⟨2, 2⟩, .add 2 0, .add 3 1, .add 3 0,
    .cut fun e => e.thread != 3 && (e.thread != 2 || e.index == 1),
    .setValue ⟨2, 1⟩ 0, .add 2 0, .add 3 1]

/-- Whether the optional block of thread 3 may be expanded. -/
def blockExpandable (s : CachingDriver Unit) : Option Bool :=
  (s.getGraph.bind fun g => g.getEventLabel ⟨3, 2⟩).map fun lab => lab.expandable

end CachingDriver

end GenMC
