import Mathlib.Data.Finset.Card
import Mathlib.Data.Finset.Range
import Mathlib.Logic.Function.Basic

/-!
# Ledgers

Entries are opened one after the other, each under a key and with a quota, and notes of
several kinds are made on them. Some of the entries are members. What a note does to the
number of members with a given property is a matter of the one entry it is made on.
-/

namespace PFunc

/-- `noted k e` is how often `e` was noted on entry `k`. -/
structure Ledger (K E : Type) where
  opened : ℕ
  latest : K → Option ℕ
  members : Finset ℕ
  quota : ℕ → ℕ
  noted : ℕ → E → ℕ

namespace Ledger

variable {K E : Type}

def initial : Ledger K E := ⟨0, fun _ => none, ∅, fun _ => 0, fun _ _ => 0⟩

def openEntry [DecidableEq K] (l : Ledger K E) (key : K) (member : Bool) (quota : ℕ) :
    Ledger K E where
  opened := l.opened + 1
  latest := Function.update l.latest key (some l.opened)
  members := if member then insert l.opened l.members else l.members
  quota := Function.update l.quota l.opened quota
  noted := l.noted

def note [DecidableEq E] (l : Ledger K E) (k : ℕ) (e : E) : Ledger K E :=
  { l with noted := fun k' e' => l.noted k' e' + if k = k' ∧ e = e' then 1 else 0 }

/-- The members whose quota and notes have a property. -/
def select (l : Ledger K E) (P : ℕ → (E → ℕ) → Prop) [∀ q f, Decidable (P q f)] : Finset ℕ :=
  l.members.filter fun k => P (l.quota k) (l.noted k)

/-- Nothing is said of an entry before it is opened. -/
structure Numbered (l : Ledger K E) : Prop where
  members : ∀ k ∈ l.members, k < l.opened
  latest : ∀ key, ∀ k ∈ l.latest key, k < l.opened
  noted : ∀ k, l.opened ≤ k → l.noted k = fun _ => 0

variable {l : Ledger K E} {key : K} {member : Bool} {quota k k' : ℕ} {e e' : E}
variable {P : ℕ → (E → ℕ) → Prop} [∀ q f, Decidable (P q f)]

theorem mem_select : k ∈ l.select P ↔ k ∈ l.members ∧ P (l.quota k) (l.noted k) :=
  Finset.mem_filter

theorem numbered_initial : (initial : Ledger K E).Numbered where
  members := by simp [initial]
  latest := by simp [initial]
  noted := by simp [initial]

theorem Numbered.not_mem (h : l.Numbered) : l.opened ∉ l.members := by
  intro hmem
  have := h.members _ hmem
  omega

section OpenEntry

variable [DecidableEq K]

theorem Numbered.openEntry (h : l.Numbered) : (l.openEntry key member quota).Numbered := by
  have hopened : (l.openEntry key member quota).opened = l.opened + 1 := rfl
  constructor
  · intro k hk
    have hmem : k = l.opened ∨ k ∈ l.members := by
      cases member with
      | true => exact Finset.mem_insert.mp hk
      | false => exact .inr hk
    rcases hmem with rfl | hk
    · omega
    · have := h.members k hk
      omega
  · apply Function.forall_update_iff l.latest (fun _ o => ∀ k ∈ o, k < l.opened + 1) |>.mpr
    constructor
    · intro k hk
      cases hk
      omega
    · intro key' _ k hk
      have := h.latest key' k hk
      omega
  · intro k hk
    apply h.noted k
    omega

theorem Numbered.select_openEntry (h : l.Numbered) :
    (l.openEntry key member quota).select P =
      if member ∧ P quota (fun _ => 0) then insert l.opened (l.select P) else l.select P := by
  have hold : ∀ k ∈ l.members,
      (P (Function.update l.quota l.opened quota k) (l.noted k) ↔ P (l.quota k) (l.noted k)) := by
    intro k hk
    rw [Function.update_of_ne (h.members k hk).ne]
  have hfilter : l.members.filter (fun k => P (Function.update l.quota l.opened quota k)
      (l.noted k)) = l.select P := Finset.filter_congr hold
  cases member with
  | false => simpa [select, Ledger.openEntry] using hfilter
  | true =>
    simp only [select, Ledger.openEntry, if_true, Finset.filter_insert, Function.update_self,
      h.noted l.opened le_rfl, true_and] at hfilter ⊢
    rw [hfilter]

theorem Numbered.card_openEntry (h : l.Numbered) (hm : member = true)
    (hP : P quota fun _ => 0) :
    ((l.openEntry key member quota).select P).card = (l.select P).card + 1 := by
  rw [h.select_openEntry, if_pos ⟨hm, hP⟩]
  apply Finset.card_insert_of_notMem
  intro hmem
  exact h.not_mem (mem_select.mp hmem).1

end OpenEntry

section Note

variable [DecidableEq E]

@[simp] theorem note_opened : (l.note k e).opened = l.opened := rfl

@[simp] theorem note_latest : (l.note k e).latest = l.latest := rfl

@[simp] theorem note_members : (l.note k e).members = l.members := rfl

@[simp] theorem note_quota : (l.note k e).quota = l.quota := rfl

@[simp] theorem note_noted_self : (l.note k e).noted k e = l.noted k e + 1 := by
  simp [note]

theorem note_noted_other (h : e ≠ e') : (l.note k e).noted k' e' = l.noted k' e' := by
  simp [note, h]

theorem note_noted_of_ne (h : k ≠ k') : (l.note k e).noted k' = l.noted k' := by
  funext e'
  simp [note, h]

theorem Numbered.note (h : l.Numbered) (hk : k < l.opened) : (l.note k e).Numbered := by
  constructor
  · exact h.members
  · exact h.latest
  · intro k' hk'
    have hle : l.opened ≤ k' := hk'
    rw [note_noted_of_ne (by omega)]
    exact h.noted k' hle

/-- A note that takes a property away from an entry takes it from no other. -/
theorem select_note_erase (hP : ¬P (l.quota k) ((l.note k e).noted k)) :
    (l.note k e).select P = (l.select P).erase k := by
  ext k'
  rw [Finset.mem_erase, mem_select, mem_select]
  by_cases hk : k = k'
  · subst hk
    exact iff_of_false (fun h => hP h.2) (fun h => h.1 rfl)
  · rw [note_noted_of_ne hk]
    exact (and_iff_right (Ne.symm hk)).symm

theorem select_note_keep
    (hP : k ∈ l.members → (P (l.quota k) ((l.note k e).noted k) ↔ P (l.quota k) (l.noted k))) :
    (l.note k e).select P = l.select P := by
  ext k'
  rw [mem_select, mem_select]
  by_cases hk : k = k'
  · subst hk
    exact and_congr_right hP
  · rw [note_noted_of_ne hk]
    rfl

end Note

end Ledger

end PFunc
