import PFunc.Exceptions
import Mathlib.Tactic.Common

/-!
# The codes that the C functions return

An exception that escapes a call of the task manager has passed at least one catch block, so it
is a `pfunc::exception`, and the C function returns its code. The code is the one the exception
was made with, whatever it is; normal statuses are numbers of the same range.
-/

namespace PFunc.ReturnCodes

open Exceptions

/-- The second enumeration of `pfunc_common.h`. -/
inductive Status where
  | error
  | uninitialized
  | nomem
  | invalidArguments
  | invalidAttr
  | invalidAttrName
  | invalidAttrValue
  | invalidGroup
  | invalidGroupAttr
  | invalidHandle
  | taskIncomplete
  | success
  | initialized
  | taskComplete
  deriving DecidableEq

namespace Status

/-- The enumerators count from `PFUNC_ERROR` and again from `PFUNC_SUCCESS`. -/
def value : Status → ℤ
  | error => pfuncError
  | uninitialized => pfuncError + 1
  | nomem => pfuncError + 2
  | invalidArguments => pfuncError + 3
  | invalidAttr => pfuncError + 4
  | invalidAttrName => pfuncError + 5
  | invalidAttrValue => pfuncError + 6
  | invalidGroup => pfuncError + 7
  | invalidGroupAttr => pfuncError + 8
  | invalidHandle => pfuncError + 9
  | taskIncomplete => pfuncError + 10
  | success => 0
  | initialized => 1
  | taskComplete => 2

/-- What a call says that has not failed. -/
def IsNormal : Status → Bool
  | taskIncomplete => true
  | success => true
  | initialized => true
  | taskComplete => true
  | _ => false

end Status

/-- The C functions that call the task manager. -/
inductive Wrapper where
  | taskmgrInit
  | taskmgrClear
  | maxAttemptsSet
  | maxAttemptsGet
  | wait
  | waitAll
  | test
  | testAll
  | spawnC
  | spawnCxx
  | threadId
  | groupRank
  | groupSize
  | barrier
  deriving DecidableEq

/-- What a wrapper returns after its calls; only that of `test` has a result. -/
def Wrapper.status : Wrapper → Bool → Status
  | .test, complete => if complete then .taskComplete else .taskIncomplete
  | _, _ => .success

/-- A wrapper with `PFUNC_C_CATCH_AND_RETURN_EXCEPTION_CODE`, from how its calls end. There is no
result if an exception of another type leaves it. -/
def Wrapper.run (w : Wrapper) : Except Thrown Bool → Option ℤ
  | .ok complete => some (w.status complete).value
  | .error (.pfunc error) => some error.code
  | .error _ => none

/-- An exception on its way through catch blocks. -/
def transport : List Site → Thrown → Thrown
  | [], x => x
  | site :: sites, x => transport sites (.pfunc (x.rethrown site))

/-- The number cannot be taken for a normal status. -/
def TellsError (n : ℤ) : Prop :=
  n < 0 ∧ n ≠ Status.success.value ∧ n ≠ Status.initialized.value ∧
    n ≠ Status.taskComplete.value ∧ n ≠ Status.taskIncomplete.value

/-- What is thrown is no `pfunc::exception`, or was made with a code below zero that is not
`PFUNC_TASK_INCOMPLETE`. -/
def MadeNegative : Thrown → Prop
  | .pfunc error => error.errorCode < 0 ∧ error.errorCode ≠ Status.taskIncomplete.value
  | _ => True

/-! ### On the way -/

@[simp] theorem transport_form (sites : List Site) (x : Thrown) :
    (transport sites x).form = x.form := by
  induction sites generalizing x with
  | nil => rfl
  | cons site sites ih =>
    rw [transport, ih]
    exact x.rethrown_form site

theorem transport_pfunc (sites : List Site) (error : Exception) :
    ∃ error', transport sites (.pfunc error) = .pfunc error' := by
  induction sites generalizing error with
  | nil => exact ⟨error, rfl⟩
  | cons site sites ih => exact ih _

/-- After one catch block only a `pfunc::exception` is on its way. -/
theorem transport_cons (site : Site) (sites : List Site) (x : Thrown) :
    ∃ error, transport (site :: sites) x = .pfunc error ∧ error.code = x.form.2 := by
  obtain ⟨error, herror⟩ := transport_pfunc sites (x.rethrown site)
  have hform := transport_form (site :: sites) x
  rw [transport, herror] at hform
  exact ⟨error, herror, congrArg Prod.snd hform⟩

theorem tellsError_iff {n : ℤ} : TellsError n ↔ n < 0 ∧ n ≠ Status.taskIncomplete.value := by
  have hsuccess : Status.success.value = 0 := rfl
  have hinitialized : Status.initialized.value = 1 := rfl
  have hcomplete : Status.taskComplete.value = 2 := rfl
  unfold TellsError
  omega

theorem tellsError_code_iff (x : Thrown) : TellsError x.form.2 ↔ MadeNegative x := by
  rw [tellsError_iff]
  have hconverted : pfuncError < 0 ∧ pfuncError ≠ Status.taskIncomplete.value := by decide
  cases x with
  | pfunc error => rfl
  | std name what => exact iff_of_true hconverted trivial
  | other => exact iff_of_true hconverted trivial

/-- A C function returns the code of an exception that escapes its calls, and the code tells an
error iff the exception was made so. -/
theorem code_tells_error_iff (w : Wrapper) (x : Thrown) (first : Site) (rest : List Site) :
    (∃ n, w.run (.error (transport (first :: rest) x)) = some n ∧ TellsError n) ↔
      MadeNegative x := by
  obtain ⟨error, herror, hcode⟩ := transport_cons first rest x
  rw [herror, ← tellsError_code_iff, ← hcode]
  constructor
  · rintro ⟨n, hn, htells⟩
    cases hn
    exact htells
  · intro htells
    exact ⟨_, rfl, htells⟩

/-! ### What exceptions are made with -/

/-- The error code of an exception that is made without one. -/
def defaultCode : ℤ := 0

/-- Of the enumerators, exactly those for errors tell one. -/
theorem madeNegative_status_iff (errorTrace errorString : String) (st : Status) :
    MadeNegative (.pfunc ⟨errorTrace, errorString, st.value⟩) ↔ st.IsNormal = false := by
  have hvalue : st.value < 0 ∧ st.value ≠ Status.taskIncomplete.value ↔ st.IsNormal = false := by
    cases st <;> decide
  exact hvalue

/-- The numbers of failed system calls are positive. -/
theorem not_madeNegative_errno (errorTrace errorString : String) {errno : ℤ} (h : 0 < errno) :
    ¬MadeNegative (.pfunc ⟨errorTrace, errorString, errno⟩) := by
  rintro ⟨hneg, -⟩
  change errno < 0 at hneg
  omega

/-- A functor throws an exception with the default code; `wait` returns `PFUNC_SUCCESS`. -/
theorem default_code_hidden :
    ¬∀ (w : Wrapper) (x : Thrown) (first : Site) (rest : List Site),
      ∃ n, w.run (.error (transport (first :: rest) x)) = some n ∧ TellsError n := by
  intro h
  obtain ⟨n, hn, hneg, -⟩ := h .wait (.pfunc ⟨"work", "failed", defaultCode⟩)
    ⟨"task", "run", "task.hpp:107"⟩ []
  have hsuccess : Wrapper.wait.run (.error (transport [⟨"task", "run", "task.hpp:107"⟩]
      (.pfunc ⟨"work", "failed", defaultCode⟩))) = some Status.success.value := rfl
  rw [hsuccess] at hn
  cases hn
  exact absurd hneg (by decide)

end PFunc.ReturnCodes
