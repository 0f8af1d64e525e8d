import PFunc.CStrings
import Mathlib.Algebra.Order.Ring.Int
import Mathlib.Data.Fintype.Basic

/-!
# The format strings of `pfunc_pack` and `pfunc_unpack`

The scanner `extract_tokens` and the grammar that it accepts.
-/

namespace PFunc.FormatParser

open CStrings

inductive Base where
  | int
  | unsignedInt
  | longInt
  | char
  | unsignedChar
  | float
  | double
  | void
  deriving DecidableEq

/-- A base type behind a number of stars. -/
structure CType where
  base : Base
  stars : ℕ
  deriving DecidableEq

/-- All object pointers have one size. -/
structure Platform where
  scalar : Base → ℕ
  pointer : ℕ

def Platform.sizeof (p : Platform) (t : CType) : ℕ :=
  match t.stars with
  | 0 => p.scalar t.base
  | _ + 1 => p.pointer

inductive Token where
  | int
  | uint
  | lint
  | intp
  | uintp
  | lintp
  | intpp
  | uintpp
  | lintpp
  | chrp
  | uchrp
  | chrpp
  | uchrpp
  | fltp
  | fltpp
  | dbl
  | dblp
  | dblpp
  | voidp
  deriving DecidableEq

def invalidToken : ℤ := -1

/-- `buffer_size += size`, in an `int` -/
def addSize (bufferSize : ℤ) (size : ℕ) : ℤ := (bufferSize + size).bmod (2 ^ 32)

/-- The number of stars up to the comma or the end. -/
def getStarCount (starCount : ℤ) : Pointer → Option (ℤ × Pointer)
  | [] => none
  | c :: format =>
    if ',' ≠ c ∧ '\x00' ≠ c then
      match c with
      | ' ' => getStarCount starCount format
      | '*' => getStarCount (starCount + 1) format
      | _ => some (invalidToken, c :: format)
    else some (starCount, c :: format)

structure Scanner where
  format : Pointer
  tokenArray : List Token
  bufferSize : ℤ
  deriving DecidableEq

/-- What a `switch` on the star count pushes, and the type whose size it adds. -/
abbrev StarTable := ℤ → Option (Token × CType)

def intTable : StarTable
  | 0 => some (.int, ⟨.int, 0⟩)
  | 1 => some (.intp, ⟨.int, 1⟩)
  | 2 => some (.intpp, ⟨.int, 2⟩)
  | _ => none

def charTable : StarTable
  | 1 => some (.uchrp, ⟨.unsignedChar, 1⟩)
  | 2 => some (.uchrpp, ⟨.unsignedChar, 2⟩)
  | _ => none

def doubleTable : StarTable
  | 0 => some (.dbl, ⟨.double, 0⟩)
  | 1 => some (.dblp, ⟨.double, 1⟩)
  | 2 => some (.dblpp, ⟨.double, 2⟩)
  | _ => none

def voidTable : StarTable
  | 1 => some (.voidp, ⟨.void, 1⟩)
  | _ => none

def floatTable : StarTable
  | 1 => some (.fltp, ⟨.float, 1⟩)
  | 2 => some (.fltpp, ⟨.float, 2⟩)
  | _ => none

def unsignedIntTable : StarTable
  | 0 => some (.uint, ⟨.unsignedInt, 0⟩)
  | 1 => some (.uintp, ⟨.unsignedInt, 1⟩)
  | 2 => some (.uintpp, ⟨.unsignedInt, 2⟩)
  | _ => none

def unsignedCharTable : StarTable
  | 1 => some (.uchrp, ⟨.unsignedChar, 1⟩)
  | 2 => some (.uchrpp, ⟨.unsignedChar, 2⟩)
  | _ => none

def longIntTable : StarTable
  | 0 => some (.lint, ⟨.longInt, 0⟩)
  | 1 => some (.lintp, ⟨.longInt, 1⟩)
  | 2 => some (.lintpp, ⟨.longInt, 2⟩)
  | _ => none

variable (p : Platform)

/-- The `switch` on the star count. The Boolean is false where `INVALID_TOKEN` is returned. -/
def starSwitch (table : StarTable) (s : Scanner) : Option (Bool × Scanner) :=
  match getStarCount 0 s.format with
  | none => none
  | some (starCount, format) =>
    match table starCount with
    | none => some (false, { s with format := format })
    | some (token, type) =>
      let tokenArray := s.tokenArray ++ [token]
      let bufferSize := addSize s.bufferSize (p.sizeof type)
      match format with
      | [] => none
      | ',' :: format => some (true, ⟨format, tokenArray, bufferSize⟩)
      | format => some (true, ⟨format, tokenArray, bufferSize⟩)

/-- The letters of a name after its first one, and its stars. -/
def typeName (letters : List Char) (table : StarTable) (s : Scanner) : Option (Bool × Scanner) :=
  match accept letters s.format with
  | none => none
  | some none => some (false, s)
  | some (some format) => starSwitch p table { s with format := format }

/-- `case 'u'` -/
def unsignedName (s : Scanner) : Option (Bool × Scanner) :=
  match accept ['n', 's', 'i', 'g', 'n', 'e', 'd', ' '] s.format with
  | none => none
  | some none => some (false, s)
  | some (some format) =>
    match skip ' ' format with
    | some ('i' :: format) =>
      typeName p ['n', 't'] unsignedIntTable { s with format := 'i' :: format }
    | some ('c' :: format) =>
      typeName p ['h', 'a', 'r'] unsignedCharTable { s with format := 'c' :: format }
    | some (_ :: _) => some (false, s)
    | _ => none

/-- `case 'l'` -/
def longName (s : Scanner) : Option (Bool × Scanner) :=
  match accept ['o', 'n', 'g', ' '] s.format with
  | none => none
  | some none => some (false, s)
  | some (some format) =>
    match skip ' ' format with
    | some ('i' :: format) => typeName p ['n', 't'] longIntTable { s with format := 'i' :: format }
    | some (_ :: _) => some (false, s)
    | _ => none

/-- The body of the loop of `extract_tokens`. -/
def extractToken (s : Scanner) : Option (Bool × Scanner) :=
  match skip ' ' s.format with
  | none => none
  | some [] => none
  | some (c :: format) =>
    let s := { s with format := c :: format }
    match c with
    | 'i' => typeName p ['n', 't'] intTable s
    | 'c' => typeName p ['h', 'a', 'r'] charTable s
    | 'd' => typeName p ['o', 'u', 'b', 'l', 'e'] doubleTable s
    | 'v' => typeName p ['o', 'i', 'd'] voidTable s
    | 'f' => typeName p ['l', 'o', 'a', 't'] floatTable s
    | 'u' => unsignedName p s
    | 'l' => longName p s
    | _ => some (false, s)

/-- The loop; the first argument bounds its iterations. -/
def extractLoop : ℕ → Scanner → Option (ℤ × List Token)
  | 0, _ => none
  | fuel + 1, s =>
    match s.format with
    | [] => none
    | '\x00' :: _ => some (s.bufferSize, s.tokenArray)
    | _ =>
      match extractToken p s with
      | none => none
      | some (false, s') => some (invalidToken, s'.tokenArray)
      | some (true, s') => extractLoop fuel s'

/-- What is returned, and the array. Each iteration but the last moves the pointer. -/
def extractTokens (format : Pointer) : Option (ℤ × List Token) :=
  extractLoop p (format.length + 1) ⟨format, [], 0⟩

/-! ### The grammar -/

/-- The type that a token stands for. -/
def Token.type : Token → CType
  | .int => ⟨.int, 0⟩
  | .uint => ⟨.unsignedInt, 0⟩
  | .lint => ⟨.longInt, 0⟩
  | .intp => ⟨.int, 1⟩
  | .uintp => ⟨.unsignedInt, 1⟩
  | .lintp => ⟨.longInt, 1⟩
  | .intpp => ⟨.int, 2⟩
  | .uintpp => ⟨.unsignedInt, 2⟩
  | .lintpp => ⟨.longInt, 2⟩
  | .chrp => ⟨.char, 1⟩
  | .uchrp => ⟨.unsignedChar, 1⟩
  | .chrpp => ⟨.char, 2⟩
  | .uchrpp => ⟨.unsignedChar, 2⟩
  | .fltp => ⟨.float, 1⟩
  | .fltpp => ⟨.float, 2⟩
  | .dbl => ⟨.double, 0⟩
  | .dblp => ⟨.double, 1⟩
  | .dblpp => ⟨.double, 2⟩
  | .voidp => ⟨.void, 1⟩

def spaces (k : ℕ) : List Char := List.replicate k ' '

inductive Spelled : Base → List Char → Prop
  | int : Spelled .int ['i', 'n', 't']
  | unsignedInt (k : ℕ) : Spelled .unsignedInt
      (['u', 'n', 's', 'i', 'g', 'n', 'e', 'd'] ++ spaces (k + 1) ++ ['i', 'n', 't'])
  | longInt (k : ℕ) : Spelled .longInt (['l', 'o', 'n', 'g'] ++ spaces (k + 1) ++ ['i', 'n', 't'])
  | char : Spelled .char ['c', 'h', 'a', 'r']
  | unsignedChar (k : ℕ) : Spelled .unsignedChar
      (['u', 'n', 's', 'i', 'g', 'n', 'e', 'd'] ++ spaces (k + 1) ++ ['c', 'h', 'a', 'r'])
  | float : Spelled .float ['f', 'l', 'o', 'a', 't']
  | double : Spelled .double ['d', 'o', 'u', 'b', 'l', 'e']
  | void : Spelled .void ['v', 'o', 'i', 'd']

/-- Stars with spaces among them. -/
def Stars (k : ℕ) (text : List Char) : Prop :=
  (∀ c ∈ text, c = ' ' ∨ c = '*') ∧ text.count '*' = k

/-- One documented type name, as a comma or the end follows it. -/
inductive Item (t : Token) : List Char → Prop
  | mk (k : ℕ) {name stars : List Char} (hname : Spelled t.type.base name)
      (hstars : Stars t.type.stars stars) : Item t (spaces k ++ name ++ stars)

/-- A list of type names; one comma may end it. -/
inductive Format : List Char → List Token → Prop
  | nil : Format [] []
  | last {t : Token} {text : List Char} (h : Item t text) : Format text [t]
  | cons {t : Token} {ts : List Token} {text rest : List Char} (h : Item t text)
      (hrest : Format rest ts) : Format (text ++ ',' :: rest) (t :: ts)

def totalSize (ts : List Token) : ℕ := (ts.map fun t => p.sizeof t.type).sum

/-- The token that is yielded for a type name. -/
def Token.scanned : Token → Token
  | .chrp => .uchrp
  | .chrpp => .uchrpp
  | t => t

/-! ### Stars and tables -/

variable {p} {e : Char} {v w rest : List Char} {toks : List Token} {size : ℤ}

/-- The characters at which `getStarCount` stops. -/
def Stop (c : Char) : Prop := c = ',' ∨ c = '\x00'

instance : DecidablePred Stop := fun c => inferInstanceAs (Decidable (c = ',' ∨ c = '\x00'))

theorem getStarCount_append (he : Stop e) (hv : ∀ c ∈ v, c = ' ' ∨ c = '*') (n : ℤ) :
    getStarCount n (v ++ e :: rest) = some (n + v.count '*', e :: rest) := by
  induction v generalizing n with
  | nil => rcases he with rfl | rfl <;> simp [getStarCount]
  | cons c v ih =>
    have hv' : ∀ d ∈ v, d = ' ' ∨ d = '*' := fun d hd => hv d (List.mem_cons_of_mem _ hd)
    rcases hv c List.mem_cons_self with rfl | rfl
    · simpa [getStarCount] using ih hv' n
    · simp only [List.cons_append, getStarCount, List.count_cons_self]
      rw [if_pos (by decide), ih hv' (n + 1)]
      congr 2
      push_cast
      omega

theorem getStarCount_invalid (hstop : ∀ c ∈ v, ¬Stop c) (hv : ¬∀ c ∈ v, c = ' ' ∨ c = '*')
    (n : ℤ) : ∃ format, getStarCount n (v ++ e :: rest) = some (invalidToken, format) := by
  induction v generalizing n with
  | nil => exact absurd (fun c hc => absurd hc List.not_mem_nil) hv
  | cons c v ih =>
    have hc : ',' ≠ c ∧ '\x00' ≠ c := by
      have := hstop c List.mem_cons_self
      unfold Stop at this
      grind
    have hstop' : ∀ d ∈ v, ¬Stop d := fun d hd => hstop d (List.mem_cons_of_mem _ hd)
    by_cases hspace : c = ' '
    · subst hspace
      have hv' : ¬∀ d ∈ v, d = ' ' ∨ d = '*' := by simpa using hv
      simpa [getStarCount] using ih hstop' hv' n
    · by_cases hstar : c = '*'
      · subst hstar
        have hv' : ¬∀ d ∈ v, d = ' ' ∨ d = '*' := by simpa using hv
        simpa [getStarCount] using ih hstop' hv' (n + 1)
      · refine ⟨c :: (v ++ e :: rest), ?_⟩
        simp only [List.cons_append, getStarCount]
        rw [if_pos hc]

instance : Fintype Token := .ofList
  [.int, .uint, .lint, .intp, .uintp, .lintp, .intpp, .uintpp, .lintpp, .chrp, .uchrp, .chrpp,
    .uchrpp, .fltp, .fltpp, .dbl, .dblp, .dblpp, .voidp] (by intro t; cases t <;> decide)

theorem Token.type_injective : Function.Injective Token.type := by
  unfold Function.Injective
  decide

/-- A table has the entries of the tokens of one base type. -/
structure StarTable.Of (table : StarTable) (b : Base) : Prop where
  invalid : table invalidToken = none
  large : ∀ n : ℕ, 3 ≤ n → table n = none
  entry : ∀ n < 3, ∀ r ∈ table (n : ℕ), ∃ t : Token,
    t.type = ⟨b, n⟩ ∧ r = (t.scanned, t.scanned.type)
  complete : ∀ t : Token, t.type.base = b → table t.type.stars ≠ none

theorem intTable_of : intTable.Of .int where
  invalid := rfl
  large n hn := by
    unfold intTable
    split <;> first | rfl | omega
  entry := by decide
  complete := by decide

theorem charTable_of : charTable.Of .char where
  invalid := rfl
  large n hn := by
    unfold charTable
    split <;> first | rfl | omega
  entry := by decide
  complete := by decide

theorem doubleTable_of : doubleTable.Of .double where
  invalid := rfl
  large n hn := by
    unfold doubleTable
    split <;> first | rfl | omega
  entry := by decide
  complete := by decide

theorem voidTable_of : voidTable.Of .void where
  invalid := rfl
  large n hn := by
    unfold voidTable
    split <;> first | rfl | omega
  entry := by decide
  complete := by decide

theorem floatTable_of : floatTable.Of .float where
  invalid := rfl
  large n hn := by
    unfold floatTable
    split <;> first | rfl | omega
  entry := by decide
  complete := by decide

theorem unsignedIntTable_of : unsignedIntTable.Of .unsignedInt where
  invalid := rfl
  large n hn := by
    unfold unsignedIntTable
    split <;> first | rfl | omega
  entry := by decide
  complete := by decide

theorem unsignedCharTable_of : unsignedCharTable.Of .unsignedChar where
  invalid := rfl
  large n hn := by
    unfold unsignedCharTable
    split <;> first | rfl | omega
  entry := by decide
  complete := by decide

theorem longIntTable_of : longIntTable.Of .longInt where
  invalid := rfl
  large n hn := by
    unfold longIntTable
    split <;> first | rfl | omega
  entry := by decide
  complete := by decide

/-! ### One iteration reads one item -/

/-- What is left past a text that `e` ends. -/
def afterStop (e : Char) (rest : List Char) : Pointer := if e = ',' then rest else e :: rest

/-- Either the token of the one type name that the text can be is pushed, or the text is none. -/
def Reads (p : Platform) (A : Token → Prop) (e : Char) (rest : List Char) (toks : List Token)
    (size : ℤ) (o : Option (Bool × Scanner)) : Prop :=
  (∃ t, (∀ t', A t' ↔ t' = t) ∧ o = some (true, ⟨afterStop e rest, toks ++ [t.scanned],
    addSize size (p.sizeof t.scanned.type)⟩)) ∨ (∃ s, o = some (false, s)) ∧ ∀ t, ¬A t

theorem Reads.congr {A B : Token → Prop} {o : Option (Bool × Scanner)}
    (h : Reads p A e rest toks size o) (hAB : ∀ t, A t ↔ B t) : Reads p B e rest toks size o := by
  apply h.imp
  · rintro ⟨t, ht, ho⟩
    exact ⟨t, fun t' => (hAB t').symm.trans (ht t'), ho⟩
  · rintro ⟨ho, hnot⟩
    exact ⟨ho, fun t ht => hnot t ((hAB t).mpr ht)⟩

theorem starSwitch_reads {table : StarTable} {b : Base} (ht : table.Of b) (he : Stop e)
    (hv : ∀ c ∈ v, ¬Stop c) :
    Reads p (fun t => t.type.base = b ∧ Stars t.type.stars v) e rest toks size
      (starSwitch p table ⟨v ++ e :: rest, toks, size⟩) := by
  by_cases hstars : ∀ c ∈ v, c = ' ' ∨ c = '*'
  · simp only [starSwitch, getStarCount_append he hstars, Int.zero_add]
    cases hr : table (v.count '*') with
    | none =>
      refine .inr ⟨⟨_, rfl⟩, ?_⟩
      rintro t ⟨hbase, _, hcount⟩
      rw [hcount] at hr
      exact ht.complete t hbase hr
    | some r =>
      have hlt : v.count '*' < 3 := by
        by_contra hle
        rw [ht.large _ (by omega)] at hr
        cases hr
      obtain ⟨t, htype, rfl⟩ := ht.entry _ hlt r hr
      refine .inl ⟨t, ?_, by rcases he with rfl | rfl <;> simp [afterStop]⟩
      intro t'
      constructor
      · rintro ⟨hbase, _, hcount⟩
        have htype' : t'.type = ⟨b, t'.type.stars⟩ := by rw [← hbase]
        apply Token.type_injective
        rw [htype, htype', hcount]
      · rintro rfl
        exact ⟨by rw [htype], hstars, by rw [htype]⟩
  · have hinvalid : ∃ format, getStarCount 0 (v ++ e :: rest) = some (invalidToken, format) :=
      getStarCount_invalid hv hstars 0
    obtain ⟨format, hcount⟩ := hinvalid
    simp only [starSwitch, hcount, ht.invalid]
    exact .inr ⟨⟨_, rfl⟩, fun t h => hstars h.2.1⟩

theorem typeName_reads {table : StarTable} {b : Base} {letters : List Char} (ht : table.Of b)
    (he : Stop e) (hl : e ∉ letters) (hv : ∀ c ∈ v, ¬Stop c) (x : Char) :
    Reads p (fun t => t.type.base = b ∧ ∃ stars, v = letters ++ stars ∧ Stars t.type.stars stars)
      e rest toks size (typeName p letters table ⟨x :: (v ++ e :: rest), toks, size⟩) := by
  rcases accept_cases (v := v) x rest hl with ⟨u, rfl⟩ | ⟨haccept, hne⟩
  · have hu : ∀ c ∈ u, ¬Stop c := fun c hc => hv c (List.mem_append_right _ hc)
    simp only [typeName, List.append_assoc, accept_append]
    apply (starSwitch_reads ht he hu).congr
    intro t
    simp only [List.append_cancel_left_eq, exists_eq_left']
  · simp only [typeName, haccept]
    exact .inr ⟨⟨_, rfl⟩, fun t ⟨_, u, hu, _⟩ => hne u hu⟩

theorem exists_spaces (v : List Char) : ∃ k, v = spaces k ++ v.dropWhile (' ' = ·) := by
  induction v with
  | nil => exact ⟨0, rfl⟩
  | cons c v ih =>
    by_cases hc : ' ' = c
    · subst hc
      obtain ⟨k, hk⟩ := ih
      refine ⟨k + 1, ?_⟩
      simp only [List.dropWhile_cons_of_pos, decide_true, spaces, List.replicate_succ,
        List.cons_append]
      exact congrArg _ hk
    · exact ⟨0, by simp [spaces, hc]⟩

theorem dropWhile_spaces {k : ℕ} {c : Char} (hc : c ≠ ' ') (u : List Char) :
    (spaces k ++ c :: u).dropWhile (' ' = ·) = c :: u := by
  induction k with
  | zero => simp [spaces, Ne.symm hc]
  | succ k ih => simpa [spaces, List.replicate_succ] using ih

variable {t : Token} {x : Char}

theorem item_iff : Item t w ↔ ∃ k name stars, w = spaces k ++ name ++ stars ∧
    Spelled t.type.base name ∧ Stars t.type.stars stars := by
  constructor
  · rintro ⟨k, hname, hstars⟩
    exact ⟨k, _, _, rfl, hname, hstars⟩
  · rintro ⟨k, name, stars, rfl, hname, hstars⟩
    exact .mk k hname hstars

theorem Spelled.cons {b : Base} {name : List Char} (h : Spelled b name) :
    ∃ c letters, name = c :: letters ∧ c ≠ ' ' := by
  cases h <;> exact ⟨_, _, rfl, by decide⟩

/-- The spaces before an item do not matter. -/
theorem item_dropWhile : Item t (w.dropWhile (' ' = ·)) ↔ Item t w := by
  obtain ⟨k', hw⟩ := exists_spaces w
  constructor
  · intro h
    obtain ⟨k, name, stars, hdrop, hname, hstars⟩ := item_iff.mp h
    rw [hw, hdrop]
    apply item_iff.mpr
    exact ⟨k' + k, name, stars, by simp [spaces, ← List.replicate_append_replicate], hname, hstars⟩
  · intro h
    obtain ⟨k, name, stars, rfl, hname, hstars⟩ := item_iff.mp h
    obtain ⟨c, letters, rfl, hc⟩ := hname.cons
    rw [List.append_assoc, List.cons_append, dropWhile_spaces hc]
    exact item_iff.mpr ⟨0, c :: letters, stars, rfl, hname, hstars⟩

theorem item_cons (hx : x ≠ ' ') : Item t (x :: v) ↔ ∃ name stars,
    Spelled t.type.base (x :: name) ∧ v = name ++ stars ∧ Stars t.type.stars stars := by
  rw [item_iff]
  constructor
  · rintro ⟨k, name, stars, heq, hname, hstars⟩
    obtain ⟨c, letters, rfl, hc⟩ := hname.cons
    have hdrop := congrArg (List.dropWhile (' ' = ·)) heq
    rw [List.append_assoc, List.cons_append, dropWhile_spaces hc] at hdrop
    simp only [Ne.symm hx, decide_false, Bool.false_eq_true, not_false_eq_true,
      List.dropWhile_cons_of_neg, List.cons.injEq] at hdrop
    obtain ⟨rfl, rfl⟩ := hdrop
    exact ⟨letters, stars, hname, rfl, hstars⟩
  · rintro ⟨name, stars, hname, rfl, hstars⟩
    exact ⟨0, x :: name, stars, rfl, hname, hstars⟩

/-- A first letter that only one spelling has. -/
theorem item_cons_iff {b : Base} {letters : List Char} (hx : x ≠ ' ')
    (h : ∀ b' name, Spelled b' (x :: name) ↔ b' = b ∧ name = letters) :
    Item t (x :: v) ↔ t.type.base = b ∧ ∃ stars, v = letters ++ stars ∧
      Stars t.type.stars stars := by
  rw [item_cons hx]
  constructor
  · rintro ⟨name, stars, hname, rfl, hstars⟩
    obtain ⟨hb, rfl⟩ := (h _ _).mp hname
    exact ⟨hb, stars, rfl, hstars⟩
  · rintro ⟨hb, stars, rfl, hstars⟩
    exact ⟨letters, stars, (h _ _).mpr ⟨hb, rfl⟩, rfl, hstars⟩

theorem spelled_i (b : Base) (name : List Char) :
    Spelled b ('i' :: name) ↔ b = .int ∧ name = ['n', 't'] := by
  constructor
  · intro h
    cases h
    exact ⟨rfl, rfl⟩
  · rintro ⟨rfl, rfl⟩
    exact .int

theorem spelled_c (b : Base) (name : List Char) :
    Spelled b ('c' :: name) ↔ b = .char ∧ name = ['h', 'a', 'r'] := by
  constructor
  · intro h
    cases h
    exact ⟨rfl, rfl⟩
  · rintro ⟨rfl, rfl⟩
    exact .char

theorem spelled_d (b : Base) (name : List Char) :
    Spelled b ('d' :: name) ↔ b = .double ∧ name = ['o', 'u', 'b', 'l', 'e'] := by
  constructor
  · intro h
    cases h
    exact ⟨rfl, rfl⟩
  · rintro ⟨rfl, rfl⟩
    exact .double

theorem spelled_v (b : Base) (name : List Char) :
    Spelled b ('v' :: name) ↔ b = .void ∧ name = ['o', 'i', 'd'] := by
  constructor
  · intro h
    cases h
    exact ⟨rfl, rfl⟩
  · rintro ⟨rfl, rfl⟩
    exact .void

theorem spelled_f (b : Base) (name : List Char) :
    Spelled b ('f' :: name) ↔ b = .float ∧ name = ['l', 'o', 'a', 't'] := by
  constructor
  · intro h
    cases h
    exact ⟨rfl, rfl⟩
  · rintro ⟨rfl, rfl⟩
    exact .float

/-- The spellings that begin with `x` and some letters have a space after these. -/
def Prefixed (x : Char) (letters : List Char) (tail : Base → List Char → Prop) : Prop :=
  (∀ b name, Spelled b (x :: name) ↔ ∃ k last, name = letters ++ spaces (k + 1) ++ last ∧
    tail b last) ∧ ∀ b last, tail b last → ∃ c u, last = c :: u ∧ c ≠ ' '

inductive UnsignedTail : Base → List Char → Prop
  | int : UnsignedTail .unsignedInt ['i', 'n', 't']
  | char : UnsignedTail .unsignedChar ['c', 'h', 'a', 'r']

inductive LongTail : Base → List Char → Prop
  | int : LongTail .longInt ['i', 'n', 't']

theorem prefixed_u : Prefixed 'u' ['n', 's', 'i', 'g', 'n', 'e', 'd'] UnsignedTail := by
  constructor
  · intro b name
    constructor
    · intro h
      cases h with
      | unsignedInt k => exact ⟨k, _, rfl, .int⟩
      | unsignedChar k => exact ⟨k, _, rfl, .char⟩
    · rintro ⟨k, last, rfl, hlast⟩
      cases hlast with
      | int => exact .unsignedInt k
      | char => exact .unsignedChar k
  · intro b last h
    cases h <;> exact ⟨_, _, rfl, by decide⟩

theorem prefixed_l : Prefixed 'l' ['o', 'n', 'g'] LongTail := by
  constructor
  · intro b name
    constructor
    · intro h
      cases h with
      | longInt k => exact ⟨k, _, rfl, .int⟩
    · rintro ⟨k, last, rfl, hlast⟩
      cases hlast with
      | int => exact .longInt k
  · intro b last h
    cases h
    exact ⟨_, _, rfl, by decide⟩

/-- What follows the first word of a name, once the spaces are skipped. -/
def Tailed (tail : Base → List Char → Prop) (t : Token) (u : List Char) : Prop :=
  ∃ last stars, tail t.type.base last ∧ u = last ++ stars ∧ Stars t.type.stars stars

theorem item_prefixed {letters : List Char} {tail : Base → List Char → Prop}
    (h : Prefixed x letters tail) (hx : x ≠ ' ') : Item t (x :: v) ↔
      ∃ v', v = letters ++ [' '] ++ v' ∧ Tailed tail t (v'.dropWhile (' ' = ·)) := by
  rw [item_cons hx]
  constructor
  · rintro ⟨name, stars, hname, rfl, hstars⟩
    obtain ⟨k, last, rfl, hlast⟩ := (h.1 _ _).mp hname
    refine ⟨spaces k ++ last ++ stars, by simp [spaces, List.replicate_succ], last, stars, hlast,
      ?_, hstars⟩
    obtain ⟨c, u, rfl, hc⟩ := h.2 _ _ hlast
    rw [List.append_assoc, List.cons_append, dropWhile_spaces hc]
  · rintro ⟨v', rfl, last, stars, hlast, hdrop, hstars⟩
    obtain ⟨k, hk⟩ := exists_spaces v'
    refine ⟨letters ++ spaces (k + 1) ++ last, stars, (h.1 _ _).mpr ⟨k, last, rfl, hlast⟩, ?_,
      hstars⟩
    rw [hk, hdrop]
    simp [spaces, List.replicate_succ]

/-- The same where the first word is there. -/
theorem item_prefixed_iff {letters v' : List Char} {tail : Base → List Char → Prop}
    (h : Prefixed x letters tail) (hx : x ≠ ' ') :
    Item t (x :: (letters ++ [' '] ++ v')) ↔ Tailed tail t (v'.dropWhile (' ' = ·)) := by
  rw [item_prefixed h hx]
  constructor
  · rintro ⟨v'', hv'', htail⟩
    rwa [List.append_cancel_left hv'']
  · intro htail
    exact ⟨v', rfl, htail⟩

theorem unsignedTailed_i {z : List Char} : Tailed UnsignedTail t ('i' :: z) ↔
    t.type.base = .unsignedInt ∧ ∃ stars, z = ['n', 't'] ++ stars ∧ Stars t.type.stars stars := by
  constructor
  · rintro ⟨last, stars, hlast, heq, hstars⟩
    generalize t.type.base = b at hlast
    cases hlast with
    | int => exact ⟨rfl, stars, (List.cons.inj heq).2, hstars⟩
    | char => exact absurd (List.cons.inj heq).1 (by decide)
  · rintro ⟨hb, stars, rfl, hstars⟩
    refine ⟨['i', 'n', 't'], stars, ?_, rfl, hstars⟩
    rw [hb]
    exact .int

theorem unsignedTailed_c {z : List Char} : Tailed UnsignedTail t ('c' :: z) ↔
    t.type.base = .unsignedChar ∧
      ∃ stars, z = ['h', 'a', 'r'] ++ stars ∧ Stars t.type.stars stars := by
  constructor
  · rintro ⟨last, stars, hlast, heq, hstars⟩
    generalize t.type.base = b at hlast
    cases hlast with
    | int => exact absurd (List.cons.inj heq).1 (by decide)
    | char => exact ⟨rfl, stars, (List.cons.inj heq).2, hstars⟩
  · rintro ⟨hb, stars, rfl, hstars⟩
    refine ⟨['c', 'h', 'a', 'r'], stars, ?_, rfl, hstars⟩
    rw [hb]
    exact .char

theorem longTailed_i {z : List Char} : Tailed LongTail t ('i' :: z) ↔
    t.type.base = .longInt ∧ ∃ stars, z = ['n', 't'] ++ stars ∧ Stars t.type.stars stars := by
  constructor
  · rintro ⟨last, stars, hlast, heq, hstars⟩
    generalize t.type.base = b at hlast
    cases hlast
    exact ⟨rfl, stars, (List.cons.inj heq).2, hstars⟩
  · rintro ⟨hb, stars, rfl, hstars⟩
    refine ⟨['i', 'n', 't'], stars, ?_, rfl, hstars⟩
    rw [hb]
    exact .int

theorem not_unsignedTailed {u : List Char} (hi : ∀ z, u ≠ 'i' :: z) (hc : ∀ z, u ≠ 'c' :: z) :
    ¬Tailed UnsignedTail t u := by
  rintro ⟨last, stars, hlast, rfl, _⟩
  generalize t.type.base = b at hlast
  cases hlast with
  | int => exact hi _ rfl
  | char => exact hc _ rfl

theorem not_longTailed {u : List Char} (hi : ∀ z, u ≠ 'i' :: z) : ¬Tailed LongTail t u := by
  rintro ⟨last, stars, hlast, rfl, _⟩
  generalize t.type.base = b at hlast
  cases hlast
  exact hi _ rfl

theorem Stop.ne {c : Char} (he : Stop e) (hc : ¬Stop c) : c ≠ e := by
  rintro rfl
  exact hc he

theorem not_stop_dropWhile {u : List Char} (hv : ∀ c ∈ u ++ v, ¬Stop c) :
    ∀ c ∈ v.dropWhile (' ' = ·), ¬Stop c := by
  intro c hc
  apply hv c
  exact List.mem_append_right _ ((List.dropWhile_sublist _).subset hc)

theorem unsignedName_reads (he : Stop e) (hv : ∀ c ∈ v, ¬Stop c) :
    Reads p (fun t => Item t ('u' :: v)) e rest toks size
      (unsignedName p ⟨'u' :: (v ++ e :: rest), toks, size⟩) := by
  have hletters : e ∉ ['n', 's', 'i', 'g', 'n', 'e', 'd', ' '] := by
    rcases he with rfl | rfl <;> decide
  have hspace : ' ' ≠ e := by rcases he with rfl | rfl <;> decide
  rcases accept_cases (v := v) 'u' rest hletters with ⟨v', rfl⟩ | ⟨haccept, hne⟩
  · have hitem : ∀ t, Item t ('u' :: (['n', 's', 'i', 'g', 'n', 'e', 'd', ' '] ++ v')) ↔
        Tailed UnsignedTail t (v'.dropWhile (' ' = ·)) :=
      fun t => item_prefixed_iff prefixed_u (by decide)
    have hstop := not_stop_dropWhile hv
    simp only [unsignedName, List.append_assoc, accept_append, skip_append hspace]
    cases hu : v'.dropWhile (' ' = ·) with
    | nil =>
      have hfalse : ∀ t, ¬Item t ('u' :: (['n', 's', 'i', 'g', 'n', 'e', 'd', ' '] ++ v')) := by
        intro t
        rw [hitem, hu]
        exact not_unsignedTailed (by simp) (by simp)
      refine .inr ⟨?_, hfalse⟩
      rcases he with rfl | rfl <;> exact ⟨_, rfl⟩
    | cons c z =>
      rw [hu] at hstop
      have hz : ∀ d ∈ z, ¬Stop d := fun d hd => hstop d (List.mem_cons_of_mem _ hd)
      by_cases hi : c = 'i'
      · subst hi
        have hnt : e ∉ ['n', 't'] := by rcases he with rfl | rfl <;> decide
        apply (typeName_reads unsignedIntTable_of he hnt hz 'i').congr
        intro t
        rw [hitem, hu, unsignedTailed_i]
      · by_cases hc : c = 'c'
        · subst hc
          have har : e ∉ ['h', 'a', 'r'] := by rcases he with rfl | rfl <;> decide
          apply (typeName_reads unsignedCharTable_of he har hz 'c').congr
          intro t
          rw [hitem, hu, unsignedTailed_c]
        · have hfalse : ∀ t, ¬Item t ('u' :: (['n', 's', 'i', 'g', 'n', 'e', 'd', ' '] ++ v')) := by
            intro t
            rw [hitem, hu]
            exact not_unsignedTailed (by simp [hi]) (by simp [hc])
          refine .inr ⟨?_, hfalse⟩
          split
          · simp_all
          · simp_all
          · exact ⟨_, rfl⟩
          · simp_all
  · simp only [unsignedName, haccept]
    refine .inr ⟨⟨_, rfl⟩, ?_⟩
    intro t ht
    obtain ⟨v', rfl, _⟩ := (item_prefixed prefixed_u (by decide)).mp ht
    exact hne v' rfl

theorem longName_reads (he : Stop e) (hv : ∀ c ∈ v, ¬Stop c) :
    Reads p (fun t => Item t ('l' :: v)) e rest toks size
      (longName p ⟨'l' :: (v ++ e :: rest), toks, size⟩) := by
  have hletters : e ∉ ['o', 'n', 'g', ' '] := by
    rcases he with rfl | rfl <;> decide
  have hspace : ' ' ≠ e := by rcases he with rfl | rfl <;> decide
  rcases accept_cases (v := v) 'l' rest hletters with ⟨v', rfl⟩ | ⟨haccept, hne⟩
  · have hitem : ∀ t, Item t ('l' :: (['o', 'n', 'g', ' '] ++ v')) ↔
        Tailed LongTail t (v'.dropWhile (' ' = ·)) :=
      fun t => item_prefixed_iff prefixed_l (by decide)
    have hstop := not_stop_dropWhile hv
    simp only [longName, List.append_assoc, accept_append, skip_append hspace]
    cases hu : v'.dropWhile (' ' = ·) with
    | nil =>
      have hfalse : ∀ t, ¬Item t ('l' :: (['o', 'n', 'g', ' '] ++ v')) := by
        intro t
        rw [hitem, hu]
        exact not_longTailed (by simp)
      refine .inr ⟨?_, hfalse⟩
      rcases he with rfl | rfl <;> exact ⟨_, rfl⟩
    | cons c z =>
      rw [hu] at hstop
      have hz : ∀ d ∈ z, ¬Stop d := fun d hd => hstop d (List.mem_cons_of_mem _ hd)
      by_cases hi : c = 'i'
      · subst hi
        have hnt : e ∉ ['n', 't'] := by rcases he with rfl | rfl <;> decide
        apply (typeName_reads longIntTable_of he hnt hz 'i').congr
        intro t
        rw [hitem, hu, longTailed_i]
      · have hfalse : ∀ t, ¬Item t ('l' :: (['o', 'n', 'g', ' '] ++ v')) := by
          intro t
          rw [hitem, hu]
          exact not_longTailed (by simp [hi])
        refine .inr ⟨?_, hfalse⟩
        split
        · simp_all
        · exact ⟨_, rfl⟩
        · simp_all
  · simp only [longName, haccept]
    refine .inr ⟨⟨_, rfl⟩, ?_⟩
    intro t ht
    obtain ⟨v', rfl, _⟩ := (item_prefixed prefixed_l (by decide)).mp ht
    exact hne v' rfl

/-- Every name begins with one of the letters of the `switch`. -/
theorem Spelled.first {b : Base} {name : List Char} (h : Spelled b (x :: name)) :
    x ∈ ['i', 'c', 'd', 'v', 'f', 'u', 'l'] := by
  generalize hname : x :: name = text at h
  cases h <;> cases hname <;> decide

theorem extractToken_reads (he : Stop e) (hw : ∀ c ∈ w, ¬Stop c) :
    Reads p (fun t => Item t w) e rest toks size
      (extractToken p ⟨w ++ e :: rest, toks, size⟩) := by
  have hspace : ' ' ≠ e := by rcases he with rfl | rfl <;> decide
  have hstop : ∀ c ∈ w.dropWhile (' ' = ·), ¬Stop c := fun c hc =>
    hw c ((List.dropWhile_sublist _).subset hc)
  apply Reads.congr (A := fun t => Item t (w.dropWhile (' ' = ·))) _ fun t => item_dropWhile
  simp only [extractToken, skip_append hspace]
  cases hu : w.dropWhile (' ' = ·) with
  | nil =>
    have hfalse : ∀ t, ¬Item t [] := by
      intro t ht
      obtain ⟨k, name, stars, heq, hname, _⟩ := item_iff.mp ht
      obtain ⟨c, letters, rfl, _⟩ := hname.cons
      simp at heq
    refine .inr ⟨?_, hfalse⟩
    rcases he with rfl | rfl <;> exact ⟨_, rfl⟩
  | cons x v =>
    rw [hu] at hstop
    have hv : ∀ d ∈ v, ¬Stop d := fun d hd => hstop d (List.mem_cons_of_mem _ hd)
    have hx : x ≠ ' ' := by
      have := List.head?_dropWhile_not (' ' = ·) w
      rw [hu] at this
      simpa [eq_comm] using this
    by_cases hmem : x ∈ ['i', 'c', 'd', 'v', 'f', 'u', 'l']
    · simp only [List.mem_cons, List.not_mem_nil, or_false] at hmem
      rcases hmem with rfl | rfl | rfl | rfl | rfl | rfl | rfl
      · have hl : e ∉ ['n', 't'] := by rcases he with rfl | rfl <;> decide
        exact (typeName_reads intTable_of he hl hv 'i').congr fun t =>
          (item_cons_iff hx spelled_i).symm
      · have hl : e ∉ ['h', 'a', 'r'] := by rcases he with rfl | rfl <;> decide
        exact (typeName_reads charTable_of he hl hv 'c').congr fun t =>
          (item_cons_iff hx spelled_c).symm
      · have hl : e ∉ ['o', 'u', 'b', 'l', 'e'] := by rcases he with rfl | rfl <;> decide
        exact (typeName_reads doubleTable_of he hl hv 'd').congr fun t =>
          (item_cons_iff hx spelled_d).symm
      · have hl : e ∉ ['o', 'i', 'd'] := by rcases he with rfl | rfl <;> decide
        exact (typeName_reads voidTable_of he hl hv 'v').congr fun t =>
          (item_cons_iff hx spelled_v).symm
      · have hl : e ∉ ['l', 'o', 'a', 't'] := by rcases he with rfl | rfl <;> decide
        exact (typeName_reads floatTable_of he hl hv 'f').congr fun t =>
          (item_cons_iff hx spelled_f).symm
      · exact unsignedName_reads he hv
      · exact longName_reads he hv
    · have hfalse : ∀ t, ¬Item t (x :: v) := by
        intro t ht
        obtain ⟨name, _, hname, _⟩ := (item_cons hx).mp ht
        exact hmem hname.first
      refine .inr ⟨?_, hfalse⟩
      simp only [List.cons_append]
      split
      case h_8 => exact ⟨_, rfl⟩
      all_goals exact absurd (by simp) hmem

/-! ### The loop reads a format -/

theorem Spelled.no_stop {b : Base} {name : List Char} (h : Spelled b name) :
    ∀ c ∈ name, ¬Stop c := by
  have hspaces : ∀ k, ∀ c ∈ spaces k, ¬Stop c := by
    intro k c hc
    rw [List.eq_of_mem_replicate hc]
    decide
  have happend : ∀ {u v : List Char}, (∀ c ∈ u, ¬Stop c) → (∀ c ∈ v, ¬Stop c) →
      ∀ c ∈ u ++ v, ¬Stop c := by
    intro u v hu hv c hc
    exact (List.mem_append.mp hc).elim (hu c) (hv c)
  cases h with
  | unsignedInt k => exact happend (happend (by simp [Stop]) (hspaces _)) (by simp [Stop])
  | unsignedChar k => exact happend (happend (by simp [Stop]) (hspaces _)) (by simp [Stop])
  | longInt k => exact happend (happend (by simp [Stop]) (hspaces _)) (by simp [Stop])
  | int => simp [Stop]
  | char => simp [Stop]
  | float => simp [Stop]
  | double => simp [Stop]
  | void => simp [Stop]

theorem Item.no_stop {text : List Char} (h : Item t text) : ∀ c ∈ text, ¬Stop c := by
  obtain ⟨k, name, stars, rfl, hname, hstars⟩ := item_iff.mp h
  intro c hc
  simp only [List.append_assoc, List.mem_append] at hc
  rcases hc with hc | hc | hc
  · rw [List.eq_of_mem_replicate hc]
    decide
  · exact hname.no_stop c hc
  · rcases hstars.1 c hc with rfl | rfl <;> decide

theorem Item.not_mem {text : List Char} (h : Item t text) : ',' ∉ text := fun hc =>
  h.no_stop ',' hc (.inl rfl)

theorem format_comma_iff (hw : ',' ∉ w) {ts : List Token} :
    Format (w ++ ',' :: rest) ts ↔ ∃ t ts', ts = t :: ts' ∧ Item t w ∧ Format rest ts' := by
  constructor
  · intro h
    generalize htext : w ++ ',' :: rest = text at h
    cases h with
    | nil => simp at htext
    | last h =>
      apply absurd h.not_mem
      simp [← htext]
    | cons h hrest =>
      obtain ⟨rfl, rfl⟩ := split_first hw h.not_mem htext
      exact ⟨_, _, rfl, h, hrest⟩
  · rintro ⟨t, ts', rfl, h, hrest⟩
    exact .cons h hrest

theorem format_end_iff (hw : ',' ∉ w) (hne : w ≠ []) {ts : List Token} :
    Format w ts ↔ ∃ t, ts = [t] ∧ Item t w := by
  constructor
  · intro h
    cases h with
    | nil => exact absurd rfl hne
    | last h => exact ⟨_, rfl, h⟩
    | cons => simp at hw
  · rintro ⟨t, rfl, h⟩
    exact .last h

theorem format_nil_iff {ts : List Token} : Format [] ts ↔ ts = [] := by
  constructor
  · intro h
    generalize htext : [] = text at h
    cases h with
    | nil => rfl
    | last h =>
      obtain ⟨k, name, stars, rfl, hname, _⟩ := item_iff.mp h
      obtain ⟨c, letters, rfl, _⟩ := hname.cons
      simp at htext
    | cons => simp at htext
  · rintro rfl
    exact .nil

theorem extractLoop_succ {fuel : ℕ} {format : Pointer} (hx : x ≠ '\x00') :
    extractLoop p (fuel + 1) ⟨x :: format, toks, size⟩ =
      match extractToken p ⟨x :: format, toks, size⟩ with
      | none => none
      | some (false, s') => some (invalidToken, s'.tokenArray)
      | some (true, s') => extractLoop p fuel s' := by
  rw [extractLoop]
  split
  · simp_all
  · simp_all
  · rfl

/-- Either the rest of the string is a format, in one way, and all of it is read, or it is
rejected. -/
def ReadsAll (p : Platform) (r : List Char) (toks : List Token) (size : ℤ)
    (o : Option (ℤ × List Token)) : Prop :=
  (∃ ts, (∀ ts', Format r ts' ↔ ts' = ts) ∧
    o = some ((size + totalSize p (ts.map Token.scanned)).bmod (2 ^ 32),
      toks ++ ts.map Token.scanned)) ∨
  (∃ toks', o = some (invalidToken, toks')) ∧ ∀ ts, ¬Format r ts

theorem totalSize_cons (t : Token) (ts : List Token) :
    totalSize p (t :: ts) = p.sizeof t.type + totalSize p ts := by
  simp [totalSize]

theorem addSize_bmod (n k : ℕ) :
    (addSize size n + k).bmod (2 ^ 32) = (size + (n + k : ℕ)).bmod (2 ^ 32) := by
  rw [addSize, Int.bmod_add_bmod]
  congr 1
  omega

theorem ReadsAll.cons {o : Option (ℤ × List Token)} (hw : ',' ∉ w)
    (ht : ∀ t', Item t' w ↔ t' = t)
    (h : ReadsAll p rest (toks ++ [t.scanned]) (addSize size (p.sizeof t.scanned.type)) o) :
    ReadsAll p (w ++ ',' :: rest) toks size o := by
  rcases h with ⟨ts, hts, ho⟩ | ⟨ho, hnot⟩
  · refine .inl ⟨t :: ts, by simp [format_comma_iff hw, ht, hts], ?_⟩
    rw [ho, List.map_cons, totalSize_cons, addSize_bmod, List.append_assoc, List.singleton_append]
  · refine .inr ⟨ho, ?_⟩
    intro ts hts
    obtain ⟨_, ts', _, _, hrest⟩ := (format_comma_iff hw).mp hts
    exact hnot ts' hrest

theorem extractLoop_reads {fuel : ℕ} {r : List Char} (hr : '\x00' ∉ r) (hfuel : r.length < fuel)
    (hsize : size.bmod (2 ^ 32) = size) :
    ReadsAll p r toks size (extractLoop p fuel ⟨r ++ ['\x00'], toks, size⟩) := by
  induction fuel generalizing r toks size with
  | zero => omega
  | succ fuel ih =>
    cases hcase : r with
    | nil =>
      have hnone : (size + totalSize p ([].map Token.scanned)).bmod (2 ^ 32) = size := by
        change (size + 0).bmod (2 ^ 32) = size
        rw [Int.add_zero, hsize]
      refine .inl ⟨[], fun _ => format_nil_iff, ?_⟩
      rw [hnone, List.map_nil, List.append_nil]
      rfl
    | cons x r' =>
      have hx : x ≠ '\x00' := fun h => hr (by rw [hcase, h]; exact List.mem_cons_self)
      rw [List.cons_append, extractLoop_succ hx, ← List.cons_append, ← hcase]
      have hne : r ≠ [] := by simp [hcase]
      by_cases hcomma : ',' ∈ r
      · obtain ⟨w, rest, rfl, hw⟩ := List.eq_append_cons_of_mem hcomma
        have hstop : ∀ c ∈ w, ¬Stop c := by
          rintro c hc (rfl | rfl)
          · exact hw hc
          · exact hr (List.mem_append_left _ hc)
        have hrest : '\x00' ∉ rest := fun h =>
          hr (List.mem_append_right _ (List.mem_cons_of_mem _ h))
        have hread : Reads p (fun t => Item t w) ',' (rest ++ ['\x00']) toks size
            (extractToken p ⟨w ++ ',' :: (rest ++ ['\x00']), toks, size⟩) :=
          extractToken_reads (.inl rfl) hstop
        rw [List.append_assoc, List.cons_append]
        rcases hread with ⟨t, ht, ho⟩ | ⟨⟨s', ho⟩, hnot⟩
        · rw [ho]
          apply ReadsAll.cons hw ht
          apply ih hrest
          · rw [List.length_append, List.length_cons] at hfuel
            omega
          · exact Int.bmod_bmod
        · rw [ho]
          refine .inr ⟨⟨_, rfl⟩, ?_⟩
          intro ts hts
          obtain ⟨t, _, _, ht, _⟩ := (format_comma_iff hw).mp hts
          exact hnot t ht
      · have hstop : ∀ c ∈ r, ¬Stop c := by
          rintro c hc (rfl | rfl)
          · exact hcomma hc
          · exact hr hc
        have hread : Reads p (fun t => Item t r) '\x00' [] toks size
            (extractToken p ⟨r ++ '\x00' :: [], toks, size⟩) :=
          extractToken_reads (.inr rfl) hstop
        rcases hread with ⟨t, ht, ho⟩ | ⟨⟨s', ho⟩, hnot⟩
        · rw [ho]
          refine .inl ⟨[t], by simp [format_end_iff hcomma hne, ht], ?_⟩
          -- one more iteration finds the end
          obtain ⟨fuel, rfl⟩ : ∃ k, fuel = k + 1 := ⟨fuel - 1, by
            have := List.length_pos_of_ne_nil hne
            omega⟩
          simp [extractLoop, afterStop, totalSize, addSize]
        · rw [ho]
          refine .inr ⟨⟨_, rfl⟩, ?_⟩
          intro ts hts
          obtain ⟨t, _, ht⟩ := (format_end_iff hcomma hne).mp hts
          exact hnot t ht

theorem extractTokens_reads (p : Platform) (s : CString) :
    ReadsAll p s.chars [] 0 (extractTokens p s.pointer) := by
  apply extractLoop_reads s.not_nul
  · rw [CString.pointer, List.length_append]
    omega
  · rfl

/-- A string is a format in one way only. -/
theorem Format.unique {s : CString} {ts ts' : List Token} (h : Format s.chars ts)
    (h' : Format s.chars ts') : ts = ts' := by
  rcases extractTokens_reads ⟨fun _ => 0, 0⟩ s with ⟨_, hts, _⟩ | ⟨_, hnot⟩
  · rw [(hts ts).mp h, (hts ts').mp h']
  · exact absurd h (hnot ts)

theorem scanned_shape (t : Token) : p.sizeof t.scanned.type = p.sizeof t.type ∧
    t.scanned.type.stars = t.type.stars := by
  cases t <;> exact ⟨rfl, rfl⟩

theorem totalSize_scanned (ts : List Token) :
    totalSize p (ts.map Token.scanned) = totalSize p ts := by
  induction ts with
  | nil => rfl
  | cons t ts ih => rw [List.map_cons, totalSize_cons, totalSize_cons, ih, (scanned_shape t).1]

/-- The scanner does not run past the terminator, accepts exactly the formats, and yields a
token for each name of one and the sum of their sizes. -/
theorem extractTokens_iff (p : Platform) (s : CString)
    (hfit : ∀ ts, Format s.chars ts → totalSize p ts < 2 ^ 31) :
    ∃ size tokens, extractTokens p s.pointer = some (size, tokens) ∧
      (size ≠ invalidToken ↔ ∃ ts, Format s.chars ts) ∧
      ∀ ts, Format s.chars ts → size = totalSize p ts ∧
        tokens.map (fun t => (p.sizeof t.type, t.type.stars)) =
          ts.map fun t => (p.sizeof t.type, t.type.stars) := by
  rcases extractTokens_reads p s with ⟨ts, hts, ho⟩ | ⟨⟨tokens, ho⟩, hnot⟩
  · have hlt := hfit ts ((hts ts).mpr rfl)
    rw [Int.zero_add, totalSize_scanned, Int.bmod_eq_of_le (by omega) (by omega)] at ho
    refine ⟨_, _, ho, ?_, ?_⟩
    · apply iff_of_true
      · unfold invalidToken
        omega
      · exact ⟨ts, (hts ts).mpr rfl⟩
    · intro ts' hts'
      obtain rfl := (hts ts').mp hts'
      refine ⟨rfl, ?_⟩
      rw [List.nil_append, List.map_map]
      apply List.map_congr_left
      intro t _
      exact Prod.ext (scanned_shape (p := p) t).1 (scanned_shape (p := p) t).2
  · exact ⟨_, _, ho, by simp [hnot], fun ts hts => absurd hts (hnot ts)⟩

def lp64 : Platform where
  scalar
    | .int | .unsignedInt | .float => 4
    | .longInt | .double => 8
    | .char | .unsignedChar | .void => 1
  pointer := 8

def intChar : CString := ⟨"int, char* ,".toList, by decide⟩

theorem intChar_format : Format intChar.chars [.int, .chrp] := by
  have hint : Item .int ['i', 'n', 't'] :=
    item_iff.mpr ⟨0, _, [], rfl, .int, by simp, rfl⟩
  have hchar : Item .chrp [' ', 'c', 'h', 'a', 'r', '*', ' '] :=
    item_iff.mpr ⟨1, _, ['*', ' '], rfl, .char, by simp, rfl⟩
  exact .cons hint (.cons hchar .nil)

theorem extractTokens_iff_intChar : ∃ size tokens,
    extractTokens lp64 intChar.pointer = some (size, tokens) ∧
      (size ≠ invalidToken ↔ ∃ ts, Format intChar.chars ts) ∧
      ∀ ts, Format intChar.chars ts → size = totalSize lp64 ts ∧
        tokens.map (fun t => (lp64.sizeof t.type, t.type.stars)) =
          ts.map fun t => (lp64.sizeof t.type, t.type.stars) := by
  apply extractTokens_iff
  intro ts hts
  rw [hts.unique intChar_format]
  decide

end PFunc.FormatParser
