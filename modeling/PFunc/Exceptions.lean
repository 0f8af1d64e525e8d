import Mathlib.Data.Int.Notation
import Mathlib.Data.Nat.Notation

/-!
# Exception objects and the macros that pass them on

The build with exceptions keeps in tasks, groups and the task manager a pointer
`except` to an exception object of its own. The macros replace the object in separate
accesses, which is why a pointer may be seen after its object was destroyed.
Allocations succeed here.
-/

namespace PFunc.Exceptions

/-- `exception_generic_impl` -/
structure Exception where
  errorTrace : String
  errorString : String
  errorCode : ℤ
  deriving DecidableEq

namespace Exception

def trace (e : Exception) : String := e.errorTrace

def what (e : Exception) : String := e.errorString

def code (e : Exception) : ℤ := e.errorCode

def addToTrace (e : Exception) (newTrace : String) : Exception :=
  { e with errorTrace := e.errorTrace ++ newTrace }

/-- What a handler sees besides the trace. -/
def form (e : Exception) : String × ℤ := (e.what, e.code)

@[simp] theorem addToTrace_form (e : Exception) (newTrace : String) :
    (e.addToTrace newTrace).form = e.form := rfl

end Exception

/-- `PFUNC_ERROR` -/
def pfuncError : ℤ := -0xFFFF

/-- What a functor may throw; `name` is that of the type of a `std::exception`. -/
inductive Thrown where
  | pfunc (error : Exception)
  | std (name what : String)
  | other
  deriving DecidableEq

/-- The arguments of a catch macro and its `FILE_AND_LINE ()`. -/
structure Site where
  structName : String
  funcName : String
  fileAndLine : String
  deriving DecidableEq

def Site.text (site : Site) : String :=
  site.structName ++ "::" ++ site.funcName ++ " at " ++ site.fileAndLine

namespace Thrown

/-- The object that `clone`, `convert` or `new` makes in a catch block. -/
def convert (site : Site) : Thrown → Exception
  | .pfunc error => error
  | .std name what => ⟨name ++ ": from " ++ site.text, what, pfuncError⟩
  | .other => ⟨site.text, "Unknown error", pfuncError⟩

/-- The object that leaves a catch block and is thrown again, at once by
`PFUNC_CATCH_AND_RETHROW` or, after `PFUNC_CATCH_AND_STORE`, by `PFUNC_CHECK_AND_RETHROW`. -/
def rethrown (site : Site) (x : Thrown) : Exception :=
  match x with
  | .pfunc error => error.addToTrace (": from " ++ site.text)
  | _ => x.convert site

def form : Thrown → String × ℤ
  | .pfunc error => error.form
  | .std _ what => (what, pfuncError)
  | .other => ("Unknown error", pfuncError)

@[simp] theorem convert_form (site : Site) (x : Thrown) : (x.convert site).form = x.form := by
  cases x <;> rfl

@[simp] theorem rethrown_form (site : Site) (x : Thrown) : (x.rethrown site).form = x.form := by
  cases x <;> rfl

end Thrown

/-- The pointer `except` with its object. -/
inductive Cell where
  | null
  | live (e : Exception)
  /-- the object was destroyed and the pointer has still to be set -/
  | freed
  deriving DecidableEq

/-- The accesses of a catch block to `except`, before the last one, `rethrow`. -/
inductive Phase where
  | destroy
  | assign
  | trace
  deriving DecidableEq

namespace Cell

/-- One access of `PFUNC_CATCH_AND_STORE` or `PFUNC_CATCH_AND_RETHROW`. The block for
what is no `std::exception` neither destroys the old object nor adds to a trace. There is
no result where the behaviour is undefined. -/
def replace (x : Thrown) (site : Site) : Phase → Cell → Option Cell
  | .destroy, cell =>
    match x, cell with
    | .other, _ => some cell
    | _, .null => some .null
    | _, .live _ => some .freed
    | _, .freed => none
  | .assign, _ => some (.live (x.convert site))
  | .trace, cell =>
    match x, cell with
    | .pfunc _, .live e => some (.live (e.addToTrace (": from " ++ site.text)))
    | .pfunc _, _ => none
    | _, _ => some cell

end Cell

end PFunc.Exceptions
