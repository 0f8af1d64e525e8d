import Mathlib.Data.List.TakeWhile

/-!
# Scanning NUL-terminated strings

A pointer into a string is what lies between it and the end of the object, the terminator
included. There is no result where a scan would read past the terminator. The lemmas are
about a pointer to a text that a character ends.
-/

namespace PFunc.CStrings

abbrev Pointer := List Char

structure CString where
  chars : List Char
  not_nul : '\x00' ∉ chars

def CString.pointer (s : CString) : Pointer := s.chars ++ ['\x00']

/-- `while (c == *format) ++format;` -/
def skip (c : Char) : Pointer → Option Pointer
  | [] => none
  | d :: format => if c = d then skip c format else some (d :: format)

/-- Compare each letter with the next character, the first one with the character after the
current one. Return the pointer past the last letter, or nothing on a mismatch. -/
def accept : List Char → Pointer → Option (Option Pointer)
  | [], _ :: format => some (some format)
  | c :: letters, _ :: d :: format =>
    if c ≠ d then some none else accept letters (d :: format)
  | _, _ => none

variable {c d e : Char} {letters v rest : List Char}

/-- There is one way to split a list at the first occurrence of an element. -/
theorem split_first {α : Type*} {a : α} {u u' w w' : List α} (hu : a ∉ u) (hu' : a ∉ u')
    (h : u ++ a :: w = u' ++ a :: w') : u = u' ∧ w = w' := by
  induction u generalizing u' with
  | nil =>
    cases u' with
    | nil => exact ⟨rfl, (List.cons.inj h).2⟩
    | cons b u' => exact absurd ((List.cons.inj h).1 ▸ List.mem_cons_self) hu'
  | cons b u ih =>
    cases u' with
    | nil => exact absurd ((List.cons.inj h).1 ▸ List.mem_cons_self) hu
    | cons b' u' =>
      obtain ⟨rfl, htail⟩ := List.cons.inj h
      obtain ⟨rfl, rfl⟩ := ih (fun hm => hu (List.mem_cons_of_mem _ hm))
        (fun hm => hu' (List.mem_cons_of_mem _ hm)) htail
      exact ⟨rfl, rfl⟩

theorem skip_append (he : c ≠ e) :
    skip c (v ++ e :: rest) = some (v.dropWhile (c = ·) ++ e :: rest) := by
  induction v with
  | nil => simp [skip, he]
  | cons d v ih =>
    by_cases hd : c = d
    · subst hd
      simpa [skip] using ih
    · simp [skip, hd]

theorem accept_append (format : Pointer) :
    accept letters (d :: (letters ++ format)) = some (some format) := by
  induction letters generalizing d with
  | nil => rfl
  | cons c letters ih => simp [accept, ih]

theorem accept_cases (d : Char) (rest : List Char) (he : e ∉ letters) :
    (∃ u, v = letters ++ u) ∨
      accept letters (d :: (v ++ e :: rest)) = some none ∧ ∀ u, v ≠ letters ++ u := by
  induction letters generalizing d v with
  | nil => exact .inl ⟨v, rfl⟩
  | cons c letters ih =>
    have hec : c ≠ e := fun h => he (h ▸ List.mem_cons_self)
    have het : e ∉ letters := fun h => he (List.mem_cons_of_mem _ h)
    cases v with
    | nil => exact .inr ⟨by simp [accept, hec], by simp⟩
    | cons d' v =>
      by_cases hd : c = d'
      · subst hd
        apply (ih (v := v) c het).imp
        · rintro ⟨u, rfl⟩
          exact ⟨u, rfl⟩
        · rintro ⟨haccept, hne⟩
          exact ⟨by simpa [accept] using haccept, fun u h => hne u (List.cons.inj h).2⟩
      · exact .inr ⟨by simp [accept, hd], fun u h => hd (List.cons.inj h).1.symm⟩

end PFunc.CStrings
