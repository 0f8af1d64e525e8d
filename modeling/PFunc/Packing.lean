import PFunc.ByteBlocks
import PFunc.FormatParser

/-!
# `pfunc_pack` and `pfunc_unpack`

The parser, the copies into the buffer and the copies out of it each have a table over the
tokens. The loops keep the three in step.
-/

namespace PFunc.Packing

open CStrings ByteBlocks FormatParser

def pointerTo (t : CType) : CType := { t with stars := t.stars + 1 }

variable {p : Platform} {L : Type} [DecidableEq L]

/-- An argument of `pfunc_pack`. -/
structure Value (p : Platform) where
  type : CType
  bytes : List UInt8
  length_bytes : bytes.length = p.sizeof type

/-- A variable that an argument of `pfunc_unpack` points to. -/
structure Object (p : Platform) where
  type : CType
  block : Block
  length_block : block.length = p.sizeof type

def IsChar (b : Base) : Prop := b = .char ∨ b = .unsignedChar

instance : DecidablePred IsChar := fun b =>
  inferInstanceAs (Decidable (b = .char ∨ b = .unsignedChar))

/-- `va_arg` may take an argument of one type as one of the other. Pointers to `char` and to
`unsigned char` are passed alike. -/
def Compatible (t u : CType) : Prop :=
  t = u ∨ t.stars = u.stars ∧ 0 < t.stars ∧ IsChar t.base ∧ IsChar u.base

instance (t u : CType) : Decidable (Compatible t u) :=
  inferInstanceAs (Decidable (t = u ∨
    t.stars = u.stars ∧ 0 < t.stars ∧ IsChar t.base ∧ IsChar u.base))

/-- The next argument and the ones after it. -/
def vaArg {α : Type} (type : α → CType) (t : CType) : List α → Option (α × List α)
  | [] => none
  | a :: args => if Compatible (type a) t then some (a, args) else none

/-- What a case of the `switch` names. -/
structure Arm where
  /-- the type of `param` -/
  param : CType
  /-- whose size is copied -/
  copied : CType
  /-- whose size is added to `buffer` -/
  advance : CType
  deriving DecidableEq

def packArm : Token → Arm
  | .int => ⟨⟨.int, 0⟩, ⟨.int, 0⟩, ⟨.int, 0⟩⟩
  | .intp => ⟨⟨.int, 1⟩, ⟨.int, 1⟩, ⟨.int, 1⟩⟩
  | .intpp => ⟨⟨.int, 2⟩, ⟨.int, 2⟩, ⟨.int, 2⟩⟩
  | .uint => ⟨⟨.unsignedInt, 0⟩, ⟨.unsignedInt, 0⟩, ⟨.unsignedInt, 0⟩⟩
  | .uintp => ⟨⟨.unsignedInt, 1⟩, ⟨.unsignedInt, 1⟩, ⟨.unsignedInt, 1⟩⟩
  | .uintpp => ⟨⟨.unsignedInt, 2⟩, ⟨.unsignedInt, 2⟩, ⟨.unsignedInt, 2⟩⟩
  | .lint => ⟨⟨.longInt, 0⟩, ⟨.longInt, 0⟩, ⟨.longInt, 0⟩⟩
  | .lintp => ⟨⟨.longInt, 1⟩, ⟨.longInt, 1⟩, ⟨.longInt, 1⟩⟩
  | .lintpp => ⟨⟨.longInt, 2⟩, ⟨.longInt, 2⟩, ⟨.longInt, 2⟩⟩
  | .chrp => ⟨⟨.char, 1⟩, ⟨.char, 1⟩, ⟨.char, 1⟩⟩
  | .chrpp => ⟨⟨.char, 2⟩, ⟨.char, 2⟩, ⟨.char, 2⟩⟩
  | .uchrp => ⟨⟨.unsignedChar, 1⟩, ⟨.unsignedChar, 1⟩, ⟨.unsignedChar, 1⟩⟩
  | .uchrpp => ⟨⟨.unsignedChar, 2⟩, ⟨.unsignedChar, 2⟩, ⟨.unsignedChar, 2⟩⟩
  | .fltp => ⟨⟨.float, 1⟩, ⟨.float, 1⟩, ⟨.float, 1⟩⟩
  | .fltpp => ⟨⟨.float, 2⟩, ⟨.float, 2⟩, ⟨.float, 2⟩⟩
  | .dbl => ⟨⟨.double, 0⟩, ⟨.double, 0⟩, ⟨.double, 0⟩⟩
  | .dblp => ⟨⟨.double, 1⟩, ⟨.double, 1⟩, ⟨.double, 1⟩⟩
  | .dblpp => ⟨⟨.double, 2⟩, ⟨.double, 2⟩, ⟨.double, 2⟩⟩
  | .voidp => ⟨⟨.void, 1⟩, ⟨.void, 1⟩, ⟨.void, 1⟩⟩

structure Packer (p : Platform) where
  block : Block
  /-- the offset of `buffer` into the block -/
  buffer : ℕ
  args : List (Value p)

def packToken (s : Packer p) (t : Token) : Option (Packer p) :=
  let arm := packArm t
  match vaArg Value.type arm.param s.args with
  | none => none
  | some (param, args) =>
    (memcpy s.block s.buffer (initialized param.bytes) 0 (p.sizeof arm.copied)).map fun block =>
      ⟨block, s.buffer + p.sizeof arm.advance, args⟩

/-- The outer `none` is undefined behaviour, or the exception of `new` for a negative size. The
inner one is `PFUNC_ERROR`. `new` does not return `NULL`. -/
def pack (p : Platform) (format : Pointer) (args : List (Value p)) : Option (Option (Packer p)) :=
  match extractTokens p format with
  | none => none
  | some (bufferSize, tokenArray) =>
    if bufferSize = invalidToken then some none
    else if bufferSize < 0 then none
    else (tokenArray.foldlM packToken ⟨uninitialized bufferSize.toNat, 0, args⟩).map some

def unpackArm : Token → Arm
  | .int => ⟨⟨.int, 1⟩, ⟨.int, 0⟩, ⟨.int, 0⟩⟩
  | .lint => ⟨⟨.longInt, 1⟩, ⟨.longInt, 0⟩, ⟨.longInt, 0⟩⟩
  | .uint => ⟨⟨.unsignedInt, 1⟩, ⟨.unsignedInt, 0⟩, ⟨.unsignedInt, 0⟩⟩
  | .intp => ⟨⟨.int, 2⟩, ⟨.int, 1⟩, ⟨.int, 1⟩⟩
  | .lintp => ⟨⟨.longInt, 2⟩, ⟨.longInt, 1⟩, ⟨.longInt, 1⟩⟩
  | .uintp => ⟨⟨.unsignedInt, 2⟩, ⟨.unsignedInt, 1⟩, ⟨.unsignedInt, 1⟩⟩
  | .intpp => ⟨⟨.int, 3⟩, ⟨.int, 2⟩, ⟨.int, 2⟩⟩
  | .lintpp => ⟨⟨.longInt, 3⟩, ⟨.longInt, 2⟩, ⟨.longInt, 2⟩⟩
  | .uintpp => ⟨⟨.unsignedInt, 3⟩, ⟨.unsignedInt, 2⟩, ⟨.unsignedInt, 2⟩⟩
  | .chrp => ⟨⟨.char, 2⟩, ⟨.char, 1⟩, ⟨.char, 1⟩⟩
  | .uchrp => ⟨⟨.unsignedChar, 2⟩, ⟨.unsignedChar, 1⟩, ⟨.unsignedChar, 1⟩⟩
  | .chrpp => ⟨⟨.char, 3⟩, ⟨.char, 2⟩, ⟨.char, 2⟩⟩
  | .uchrpp => ⟨⟨.unsignedChar, 3⟩, ⟨.unsignedChar, 2⟩, ⟨.unsignedChar, 2⟩⟩
  | .fltp => ⟨⟨.float, 2⟩, ⟨.float, 1⟩, ⟨.float, 1⟩⟩
  | .fltpp => ⟨⟨.float, 3⟩, ⟨.float, 2⟩, ⟨.float, 2⟩⟩
  | .dbl => ⟨⟨.double, 1⟩, ⟨.double, 0⟩, ⟨.double, 0⟩⟩
  | .dblp => ⟨⟨.double, 2⟩, ⟨.double, 1⟩, ⟨.double, 1⟩⟩
  | .dblpp => ⟨⟨.double, 3⟩, ⟨.double, 2⟩, ⟨.double, 2⟩⟩
  | .voidp => ⟨⟨.void, 2⟩, ⟨.void, 1⟩, ⟨.void, 1⟩⟩

structure Unpacker (p : Platform) (L : Type) where
  buffer : ℕ
  /-- the arguments, each the place of the variable that it points to -/
  args : List L
  memory : L → Object p

/-- A copy into the variable, which keeps its size. -/
def Object.store (o : Object p) (source : Block) (j n : ℕ) : Option (Object p) :=
  match memcpy o.block 0 source j n with
  | none => none
  | some block =>
    if h : block.length = p.sizeof o.type then some ⟨o.type, block, h⟩ else none

def unpackToken (source : Block) (s : Unpacker p L) (t : Token) : Option (Unpacker p L) :=
  let arm := unpackArm t
  match vaArg (fun l => pointerTo (s.memory l).type) arm.param s.args with
  | none => none
  | some (param, args) =>
    ((s.memory param).store source s.buffer (p.sizeof arm.copied)).map fun o =>
      ⟨s.buffer + p.sizeof arm.advance, args, Function.update s.memory param o⟩

def unpack (source : Block) (format : Pointer) (args : List L) (memory : L → Object p) :
    Option (Option (Unpacker p L)) :=
  match extractTokens p format with
  | none => none
  | some (bufferSize, tokenArray) =>
    if bufferSize = invalidToken then some none
    else (tokenArray.foldlM (unpackToken source) ⟨0, args, memory⟩).map some

/-! ### The tables agree -/

theorem packArm_eq (t : Token) : packArm t = ⟨t.type, t.type, t.type⟩ := by
  cases t <;> rfl

theorem unpackArm_eq (t : Token) : unpackArm t = ⟨pointerTo t.type, t.type, t.type⟩ := by
  cases t <;> rfl

theorem Compatible.sizeof {t u : CType} (h : Compatible t u) : p.sizeof t = p.sizeof u := by
  rcases h with rfl | ⟨hstars, hpos, _⟩
  · rfl
  · obtain ⟨k, hk⟩ := Nat.exists_eq_succ_of_ne_zero hpos.ne'
    simp [Platform.sizeof, ← hstars, hk]

theorem Compatible.pointerTo {t u : CType} (h : Compatible t u) :
    Compatible (pointerTo t) (pointerTo u) := by
  rcases h with rfl | ⟨hstars, _, hchar⟩
  · exact .inl rfl
  · exact .inr ⟨congrArg (· + 1) hstars, Nat.succ_pos _, hchar⟩

/-- The arguments have the types that the tokens stand for. -/
abbrev Typed {α : Type} (type : α → CType) (args : List α) (tokens : List Token) : Prop :=
  List.Forall₂ (fun a t => Compatible (type a) t.type) args tokens

def contents (values : List (Value p)) : List UInt8 := values.flatMap Value.bytes

theorem contents_cons (v : Value p) (vs : List (Value p)) :
    contents (v :: vs) = v.bytes ++ contents vs :=
  List.flatMap_cons

theorem length_contents {values : List (Value p)} {tokens : List Token}
    (h : Typed Value.type values tokens) : (contents values).length = totalSize p tokens := by
  induction h with
  | nil => rfl
  | cons hv _ ih =>
    rw [contents_cons, List.length_append, totalSize_cons, ih, Value.length_bytes, hv.sizeof]

/-! ### The loops -/

theorem packToken_cons {v : Value p} {t : Token} (h : Compatible v.type t.type) (before : Block)
    (k : ℕ) (vs : List (Value p)) :
    packToken ⟨before ++ uninitialized (v.bytes.length + k), before.length, v :: vs⟩ t =
      some ⟨before ++ initialized v.bytes ++ uninitialized k,
        (before ++ initialized v.bytes).length, vs⟩ := by
  have hsize : p.sizeof t.type = v.bytes.length := by rw [v.length_bytes, h.sizeof]
  have hcopy := memcpy_append (length_uninitialized v.bytes.length) before (uninitialized k) [] []
  rw [List.append_nil, List.nil_append] at hcopy
  simp only [packToken, vaArg, packArm_eq, if_pos h, hsize, uninitialized_add]
  rw [← List.length_nil, hcopy]
  simp

theorem packTokens {values : List (Value p)} {tokens : List Token}
    (h : Typed Value.type values tokens) (before : Block) :
    tokens.foldlM packToken ⟨before ++ uninitialized (contents values).length, before.length,
        values⟩ =
      some ⟨before ++ initialized (contents values),
        (before ++ initialized (contents values)).length, []⟩ := by
  induction h generalizing before with
  | nil => simp [contents, uninitialized, initialized]
  | @cons v t vs tokens hv _ ih =>
    rw [List.foldlM_cons, contents_cons, List.length_append, packToken_cons hv]
    rw [initialized_append, ← List.append_assoc]
    exact ih (before ++ initialized v.bytes)

/-- The variables after values are stored one after the other. -/
def stored (blocks : L → Block) : List (L × Value p) → L → Block
  | [] => blocks
  | (l, v) :: stores => stored (Function.update blocks l (initialized v.bytes)) stores

theorem Object.store_eq {o : Object p} {v : Value p} (hsize : v.bytes.length = p.sizeof o.type)
    (before after : Block) :
    o.store (before ++ (initialized v.bytes ++ after)) before.length v.bytes.length =
      some ⟨o.type, initialized v.bytes, (length_initialized _).trans hsize⟩ := by
  have hcopy := memcpy_append (o.length_block.trans hsize.symm) [] [] before after
  rw [List.append_nil, List.append_nil, List.nil_append, List.nil_append] at hcopy
  unfold Object.store
  rw [← List.length_nil, hcopy]
  exact dif_pos _

def blocks (memory : L → Object p) (l : L) : Block := (memory l).block

theorem unpackToken_cons {v : Value p} {t : Token} {memory : L → Object p} {l : L}
    (hv : Compatible v.type t.type) (hl : Compatible (memory l).type t.type)
    (before after : Block) (ls : List L) :
    ∃ memory', unpackToken (before ++ (initialized v.bytes ++ after))
        ⟨before.length, l :: ls, memory⟩ t =
          some ⟨(before ++ initialized v.bytes).length, ls, memory'⟩ ∧
      (∀ l', (memory' l').type = (memory l').type) ∧
      blocks memory' = Function.update (blocks memory) l (initialized v.bytes) := by
  have hsize : p.sizeof t.type = v.bytes.length := by rw [v.length_bytes, hv.sizeof]
  have hstore := Object.store_eq (hsize.symm.trans hl.sizeof.symm) before after
  refine ⟨Function.update memory l ⟨(memory l).type, initialized v.bytes,
    (length_initialized _).trans (hsize.symm.trans hl.sizeof.symm)⟩, ?_, ?_, ?_⟩
  · simp only [unpackToken, vaArg, unpackArm_eq, if_pos hl.pointerTo, hsize, hstore]
    simp
  · intro l'
    by_cases hne : l' = l
    · rw [hne, Function.update_self]
    · rw [Function.update_of_ne hne]
  · funext l'
    by_cases hne : l' = l
    · rw [hne, blocks, Function.update_self, Function.update_self]
    · rw [blocks, Function.update_of_ne hne, Function.update_of_ne hne, blocks]

theorem unpackTokens {values : List (Value p)} {tokens : List Token} {memory : L → Object p}
    {outs : List L} (hv : Typed Value.type values tokens)
    (ho : Typed (fun l => (memory l).type) outs tokens) (before : Block) :
    ∃ memory', tokens.foldlM (unpackToken (before ++ initialized (contents values)))
        ⟨before.length, outs, memory⟩ =
          some ⟨(before ++ initialized (contents values)).length, [], memory'⟩ ∧
      blocks memory' = stored (blocks memory) (outs.zip values) := by
  induction hv generalizing outs memory before with
  | nil =>
    cases ho
    exact ⟨memory, by simp [contents, initialized], rfl⟩
  | @cons v t vs tokens hvt _ ih =>
    cases ho with
    | @cons l _ ls _ hlt hls =>
      obtain ⟨memory₁, htoken, htype, hblocks⟩ :=
        unpackToken_cons hvt hlt before (initialized (contents vs)) ls
      have hls₁ : Typed (fun l => (memory₁ l).type) ls tokens := by
        simpa only [Typed, htype] using hls
      obtain ⟨memory₂, htokens, hblocks₂⟩ := ih hls₁ (before ++ initialized v.bytes)
      rw [List.append_assoc, ← initialized_append, ← contents_cons] at htokens
      refine ⟨memory₂, ?_, ?_⟩
      · rw [List.foldlM_cons, contents_cons, initialized_append, htoken, ← initialized_append,
          ← contents_cons]
        exact htokens
      · rw [hblocks₂, hblocks]
        rfl

theorem stored_of_not_mem {l : L} {stores : List (L × Value p)} {b : L → Block}
    (h : l ∉ stores.map Prod.fst) : stored b stores l = b l := by
  induction stores generalizing b with
  | nil => rfl
  | cons a stores ih =>
    rw [List.map_cons, List.mem_cons, not_or] at h
    rw [stored, ih h.2, Function.update_of_ne h.1]

/-- A variable holds the value that was stored into it last. -/
theorem stored_getElem {l : L} {v : Value p} {outs : List L} {values : List (Value p)} {k : ℕ}
    {b : L → Block} (hl : outs[k]? = some l) (hv : values[k]? = some v)
    (hlast : l ∉ outs.drop (k + 1)) : stored b (outs.zip values) l = initialized v.bytes := by
  induction k generalizing outs values b with
  | zero =>
    cases outs with
    | nil => cases hl
    | cons _ outs =>
      cases values with
      | nil => cases hv
      | cons _ values =>
        cases hl
        cases hv
        have hnot : l ∉ (outs.zip values).map Prod.fst := by
          intro hm
          obtain ⟨x, hx, rfl⟩ := List.mem_map.mp hm
          exact hlast (List.of_mem_zip hx).1
        rw [List.zip_cons_cons, stored, stored_of_not_mem hnot, Function.update_self]
  | succ k ih =>
    cases outs with
    | nil => cases hl
    | cons _ outs =>
      cases values with
      | nil => cases hv
      | cons _ values =>
        rw [List.zip_cons_cons, stored]
        exact ih hl hv hlast

/-- What the scanner returns on a format that it accepts. -/
theorem extractTokens_size {s : CString} {size : ℤ} {tokens : List Token}
    (hs : extractTokens p s.pointer = some (size, tokens)) (hvalid : size ≠ invalidToken)
    (hfit : totalSize p tokens < 2 ^ 31) : size = totalSize p tokens := by
  rcases extractTokens_reads p s with ⟨ts, _, ho⟩ | ⟨⟨toks, ho⟩, _⟩
  · rw [hs, List.nil_append, Int.zero_add] at ho
    obtain ⟨hsize, rfl⟩ := Prod.mk.inj (Option.some.inj ho)
    rw [hsize]
    exact Int.bmod_eq_of_le (by omega) (by omega)
  · rw [hs] at ho
    cases ho
    exact absurd rfl hvalid

/-- The values fill the buffer, and come back from it in their order. -/
theorem unpack_pack (s : CString) {size : ℤ} {tokens : List Token}
    (hs : extractTokens p s.pointer = some (size, tokens)) (hvalid : size ≠ invalidToken)
    (hfit : totalSize p tokens < 2 ^ 31) (values : List (Value p))
    (hvalues : Typed Value.type values tokens) (memory : L → Object p) (outs : List L)
    (houts : Typed (fun l => (memory l).type) outs tokens) :
    ∃ packer, pack p s.pointer values = some (some packer) ∧
      packer.block = initialized (contents values) ∧ packer.buffer = packer.block.length ∧
      ∃ unpacker, unpack packer.block s.pointer outs memory = some (some unpacker) ∧
        unpacker.buffer = packer.block.length ∧
        blocks unpacker.memory = stored (blocks memory) (outs.zip values) ∧
        ∀ (k : ℕ) (l : L) (v : Value p), outs[k]? = some l → values[k]? = some v →
          l ∉ outs.drop (k + 1) → (unpacker.memory l).block = initialized v.bytes := by
  have hsize : size = (contents values).length := by
    rw [extractTokens_size hs hvalid hfit, length_contents hvalues]
  have hpack := packTokens hvalues []
  obtain ⟨memory', hunpack, hblocks⟩ := unpackTokens hvalues houts []
  rw [List.nil_append, List.length_nil] at hpack hunpack
  rw [List.nil_append] at hpack
  refine ⟨⟨initialized (contents values), (initialized (contents values)).length, []⟩, ?_, rfl,
    rfl, ⟨_, [], memory'⟩, ?_, rfl, hblocks, ?_⟩
  · simp only [pack, hs, if_neg hvalid]
    rw [if_neg (by omega), hsize, Int.toNat_natCast, hpack]
    rfl
  · simp only [unpack, hs, if_neg hvalid, hunpack]
    rfl
  · intro k l v hl hv hlast
    exact (congrFun hblocks l).trans (stored_getElem hl hv hlast)

/-- The arguments of an `int` and of a `char*`. -/
def intCharValues : List (Value lp64) :=
  [⟨⟨.int, 0⟩, [7, 0, 0, 0], rfl⟩, ⟨⟨.char, 1⟩, [16, 32, 64, 0, 0, 0, 0, 0], rfl⟩]

/-- Two variables that have no values yet. -/
def intCharMemory (l : Bool) : Object lp64 :=
  bif l then ⟨⟨.char, 1⟩, uninitialized 8, rfl⟩ else ⟨⟨.int, 0⟩, uninitialized 4, rfl⟩

theorem unpack_pack_intChar :
    ∃ packer, pack lp64 intChar.pointer intCharValues = some (some packer) ∧
      packer.block = initialized (contents intCharValues) ∧
      packer.buffer = packer.block.length ∧
      ∃ unpacker, unpack packer.block intChar.pointer [false, true] intCharMemory =
          some (some unpacker) ∧
        unpacker.buffer = packer.block.length ∧
        blocks unpacker.memory =
          stored (blocks intCharMemory) ([false, true].zip intCharValues) ∧
        ∀ (k : ℕ) (l : Bool) (v : Value lp64), [false, true][k]? = some l →
          intCharValues[k]? = some v → l ∉ [false, true].drop (k + 1) →
          (unpacker.memory l).block = initialized v.bytes := by
  have hs : extractTokens lp64 intChar.pointer = some (12, [.int, .uchrp]) := by decide
  apply unpack_pack intChar hs
  · decide
  · decide
  · exact .cons (by decide) (.cons (by decide) .nil)
  · exact .cons (by decide) (.cons (by decide) .nil)

end PFunc.Packing
