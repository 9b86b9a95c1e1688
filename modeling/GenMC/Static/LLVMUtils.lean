import GenMC.Runtime.InterpreterEnumAPI
import Mathlib.Data.Finset.Basic
import Mathlib.Data.Finset.Dedup

/-!
# Side effects and allocations of instructions

What an instruction may do apart from its result is read off its kind, the answer of LLVM
(`mayHaveSideEffects`), and for a call the name of what is called.  Allocations are stack
allocations and the calls of the internal functions for the heap.
-/

namespace GenMC

/-- The called operand of a call. -/
inductive Callee (Fn : Type*) where
  | direct (f : Fn)
  -- a function behind pointer casts
  | cast (f : Fn)
  -- any other value, with its name
  | indirect (name : String)
deriving DecidableEq

namespace Callee

variable {Fn : Type*}

/-- `getCalledFunction`. -/
def calledFunction : Callee Fn → Option Fn
  | direct f => some f
  | _ => none

/-- `getCalledOperand()->stripPointerCasts()`, if it is a function. -/
def strippedFunction : Callee Fn → Option Fn
  | direct f => some f
  | cast f => some f
  | indirect _ => none

/-- `getCalledFunOrStripValName`. -/
def getCalledFunOrStripValName (name : Fn → String) : Callee Fn → String
  | direct f => name f
  | cast f => name f
  | indirect n => n

end Callee

/-- What `stripPointerCasts` leaves of an instruction. -/
inductive StrippedInst (Fn : Type*) where
  | alloca
  | call (callee : Callee Fn)
  | other
deriving DecidableEq

/-- What the analyses of calls read of an instruction; loads, fences and the others come with
`mayHaveSideEffects`. -/
inductive ModuleInst (Fn : Type*) where
  | alloca
  | call (callee : Callee Fn) (mayHaveSideEffects : Bool)
  | load (mayHaveSideEffects : Bool)
  | fence (mayHaveSideEffects : Bool)
  | store
  | atomicCmpXchg
  -- the returned value is an instruction, or not
  | ret (value : Option (StrippedInst Fn))
  | other (mayHaveSideEffects : Bool)
deriving DecidableEq

namespace ModuleInst

variable {Fn : Type*}

/-- `mayHaveSideEffects`. -/
def mayHaveSideEffects : ModuleInst Fn → Bool
  | call _ b => b
  | load b => b
  | fence b => b
  | store => true
  | atomicCmpXchg => true
  | other b => b
  | _ => false

/-- The function that a call calls, if it is known. -/
def calledFunction : ModuleInst Fn → Option Fn
  | call callee _ => callee.calledFunction
  | _ => none

/-- `hasSideEffects`; the functions without side effects are optional. -/
def hasSideEffects [DecidableEq Fn] (name : Fn → String) (i : ModuleInst Fn)
    (cleanFuns : Option (Finset Fn)) : Bool :=
  match i with
  | alloca => true
  | i =>
    i.mayHaveSideEffects &&
      match i with
      | call callee _ =>
        let name := callee.getCalledFunOrStripValName name
        if isInternalFunction name then !isCleanInternalFunction name
        else
          match cleanFuns with
          | none => true
          | some cleanFuns =>
            match callee.strippedFunction with
            | none => true
            | some fn => fn ∉ cleanFuns
      | load _ => false
      | fence _ => false
      | _ => true

end ModuleInst

/-- `isAlloc`; the functions that return allocations are optional. -/
def StrippedInst.isAlloc {Fn : Type*} [DecidableEq Fn] (name : Fn → String)
    (i : StrippedInst Fn) (allocFuns : Option (Finset Fn)) : Bool :=
  match i with
  | alloca => true
  | call callee =>
    isAllocFunction (callee.getCalledFunOrStripValName name) ||
      allocFuns.any fun allocFuns => callee.strippedFunction.any (· ∈ allocFuns)
  | other => false

/-- `Module`: its functions and their bodies; a declaration has no instructions. -/
structure LLVMModule (Fn : Type*) where
  /-- The functions in their order. -/
  functions : List Fn
  /-- `getName`. -/
  name : Fn → String
  /-- The instructions of a function. -/
  body : Fn → List (ModuleInst Fn)
  /-- `getReturnType()->isPointerTy()`. -/
  returnsPointer : Fn → Bool
  /-- The called functions are functions of the module. -/
  closed : ∀ f ∈ functions, ∀ i ∈ body f, ∀ g ∈ i.calledFunction, g ∈ functions

end GenMC
