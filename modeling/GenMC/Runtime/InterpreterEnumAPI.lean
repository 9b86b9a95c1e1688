import Mathlib.Data.Nat.Notation

/-!
# Internal functions

The functions that the interpreter handles itself.  They are known by their names, and the numbers
of their kinds come in ranges.
-/

namespace GenMC

/-- `InternalFunctions`. -/
inductive InternalFunctions where
  | assertFail | optBegin | loopBegin | spinStart | spinEnd | assume | faiZNESpinEnd
  | lockZNESpinEnd | killThread | nondetInt | threadSelf | annotateBegin | annotateEnd
  | hazptrProtect | hazptrClear | mutexInit | mutexLock | mutexUnlock | mutexTrylock
  | mutexDestroy | barrierInit | barrierWait | barrierDes | condVarInit | condVarWait
  | condVarSignal | condVarBcast | condVarDestroy | malloc | mallocAligned | pMalloc | hazptrAlloc
  | free | hazptrFree | hazptrRetire | threadCreate | threadCreateSymmetric | threadJoin
  | threadExit | atExit
deriving DecidableEq

/-- The number of an internal function. -/
def InternalFunctions.code : InternalFunctions → ℕ
  | .assertFail => 1
  | .optBegin => 2
  | .loopBegin => 3
  | .spinStart => 4
  | .spinEnd => 5
  | .assume => 8
  | .faiZNESpinEnd => 6
  | .lockZNESpinEnd => 7
  | .killThread => 9
  | .nondetInt => 10
  | .threadSelf => 11
  | .annotateBegin => 12
  | .annotateEnd => 13
  | .hazptrProtect => 14
  | .hazptrClear => 15
  | .mutexInit => 16
  | .mutexLock => 17
  | .mutexUnlock => 18
  | .mutexTrylock => 19
  | .mutexDestroy => 20
  | .barrierInit => 21
  | .barrierWait => 22
  | .barrierDes => 23
  | .condVarInit => 24
  | .condVarWait => 45
  | .condVarSignal => 26
  | .condVarBcast => 27
  | .condVarDestroy => 28
  | .malloc => 29
  | .mallocAligned => 30
  | .pMalloc => 31
  | .hazptrAlloc => 32
  | .free => 33
  | .hazptrFree => 34
  | .hazptrRetire => 35
  | .threadCreate => 36
  | .threadCreateSymmetric => 37
  | .threadJoin => 38
  | .threadExit => 39
  | .atExit => 40

/-- `internalFunNames`; the last two are calls of C++. -/
def internalFunNames : List (String × InternalFunctions) :=
  [("__VERIFIER_assert_fail", .assertFail),
   ("__VERIFIER_opt_begin", .optBegin),
   ("__VERIFIER_loop_begin", .loopBegin),
   ("__VERIFIER_spin_start", .spinStart),
   ("__VERIFIER_spin_end", .spinEnd),
   ("__VERIFIER_assume", .assume),
   ("__VERIFIER_faiZNE_spin_end", .faiZNESpinEnd),
   ("__VERIFIER_lockZNE_spin_end", .lockZNESpinEnd),
   ("__VERIFIER_kill_thread", .killThread),
   ("__VERIFIER_nondet_int", .nondetInt),
   ("__VERIFIER_thread_self", .threadSelf),
   ("__VERIFIER_annotate_begin", .annotateBegin),
   ("__VERIFIER_annotate_end", .annotateEnd),
   ("__VERIFIER_hazptr_protect", .hazptrProtect),
   ("__VERIFIER_hazptr_clear", .hazptrClear),
   ("__VERIFIER_mutex_init", .mutexInit),
   ("__VERIFIER_mutex_lock", .mutexLock),
   ("__VERIFIER_mutex_unlock", .mutexUnlock),
   ("__VERIFIER_mutex_trylock", .mutexTrylock),
   ("__VERIFIER_mutex_destroy", .mutexDestroy),
   ("__VERIFIER_barrier_init", .barrierInit),
   ("__VERIFIER_barrier_wait", .barrierWait),
   ("__VERIFIER_barrier_destroy", .barrierDes),
   ("__VERIFIER_cond_init", .condVarInit),
   ("__VERIFIER_cond_wait", .condVarWait),
   ("__VERIFIER_cond_signal", .condVarSignal),
   ("__VERIFIER_cond_broadcast", .condVarBcast),
   ("__VERIFIER_cond_destroy", .condVarDestroy),
   ("__VERIFIER_malloc", .malloc),
   ("__VERIFIER_malloc_aligned", .mallocAligned),
   ("__VERIFIER_palloc", .pMalloc),
   ("__VERIFIER_hazptr_alloc", .hazptrAlloc),
   ("__VERIFIER_free", .free),
   ("__VERIFIER_hazptr_free", .hazptrFree),
   ("__VERIFIER_hazptr_retire", .hazptrRetire),
   ("__VERIFIER_thread_create", .threadCreate),
   ("__VERIFIER_thread_create_symmetric", .threadCreateSymmetric),
   ("__VERIFIER_thread_join", .threadJoin),
   ("__VERIFIER_thread_exit", .threadExit),
   ("__VERIFIER_atexit", .atExit),
   ("_Znwm", .malloc),
   ("_ZdlPv", .free)]

/-- `isInternalFunction`. -/
def isInternalFunction (name : String) : Bool := (internalFunNames.lookup name).isSome

/-- Whether a name is the one of an internal function whose number is in a range. -/
def hasCodeIn (first last : ℕ) (name : String) : Bool :=
  (internalFunNames.lookup name).any fun f => first ≤ f.code && f.code ≤ last

/-- `isCleanInternalFunction`. -/
def isCleanInternalFunction (name : String) : Bool := hasCodeIn 1 15 name

/-- `isAllocFunction`. -/
def isAllocFunction (name : String) : Bool := hasCodeIn 29 32 name

end GenMC
