import DWindow.Lua.Printed

/-!
# The value of saved settings

What the compiler makes of the tokens of a table: the values of a list are numbered as they come,
which is in the order of `pairs`, and it takes the constants, registers and levels that
`Value.compile` counts.
-/

namespace DWindow.Lua

open CString

/-! ## What is compiled -/

def Key.name : Key → Option (List UInt8)
  | .string s => some s
  | .number _ => none

mutual

/-- The values of the lists numbered in the order of `pairs`. -/
def Value.numbered : Value → Value
  | .string s => .string s
  | .boolean b => .boolean b
  | .number n => .number n
  | .table fields => .table (fields.numbered 0 .nil)

/-- The fields behind `na` items of a list and those fields that are there already. -/
def Fields.numbered : Fields → Nat → Fields → Fields
  | .nil, _, before => before
  | .cons k v rest, na, before =>
    let p := before.put na v.numbered k.name
    rest.numbered p.2 p.1

end

mutual

/-- What the compiler takes for a value, if that is within its limits. -/
def Value.compile (level : Nat) (fs : FuncState) : Value → Option FuncState
  | .string s => if level + 1 ≤ LUAI_MAXCCALLS then some (fs.addk (.string s)) else none
  | .boolean _ => if level + 1 ≤ LUAI_MAXCCALLS then some fs else none
  | .number n =>
    if level + 1 + (if n.1 < 0 then 1 else 0) ≤ LUAI_MAXCCALLS then some fs else none
  | .table fields =>
    if level + 1 ≤ LUAI_MAXCCALLS then
      fs.reserveregs.bind fun fs' => fields.compile (level + 1) ⟨fs.freereg, none, 0⟩ fs'
    else none

def Fields.compile (level : Nat) (cc : ConsControl) (fs : FuncState) : Fields → Option FuncState
  | .nil => cc.lastlistfield fs
  | .cons k v rest =>
    (cc.closelistfield fs).bind fun c =>
    (ConsControl.beginField c.2 k.name).bind fun fs =>
    (v.compile level fs).bind fun fs' =>
    (c.1.endField c.2.freereg v.exp fs' k.name).bind fun d =>
    rest.compile level d.1 d.2

end

/-- The compiler takes the chunk; `calls` is `L->nCcalls` when it begins. -/
def Fields.Fits (calls : Nat) (t : Fields) : Prop :=
  ((Value.table t).compile (calls + 1) ⟨[.string tmpsetting], 0⟩).isSome

instance (calls : Nat) (t : Fields) : Decidable (t.Fits calls) :=
  inferInstanceAs (Decidable (_ = true))

/-! ## The parser on these tokens -/

theorem Value.exp_numbered (v : Value) : v.numbered.exp = v.exp := by
  cases v <;> rfl

theorem fieldKey_tokens (k : Key) (v : Value) (ts : List Token) :
    fieldKey (k.tokens ++ (v.tokens ++ ts)) = (k.name, v.tokens ++ ts) := by
  cases k with
  | string s => rfl
  | number i =>
    cases v with
    | string s => rfl
    | boolean b => cases b <;> rfl
    | table fields => rfl
    | number n =>
      rw [Key.tokens, Value.tokens]
      split_ifs <;> rfl

theorem head_tokens (k : Key) (v : Value) (ts : List Token) :
    (k.tokens ++ (v.tokens ++ ts)).head? ≠ some (.char 125) := by
  cases k with
  | string s => exact fun h => by cases h
  | number i =>
    cases v with
    | string s => exact fun h => by cases h
    | boolean b => cases b <;> exact fun h => by cases h
    | table fields => exact fun h => by cases h
    | number n =>
      rw [Key.tokens, Value.tokens]
      split_ifs <;> exact fun h => by cases h

theorem expr_string (n level : Nat) (fs : FuncState) (s : List UInt8) (ts : List Token) :
    expr (n + 1) level fs ((Value.string s).tokens ++ ts)
      = ((Value.string s).compile level fs).map fun fs' => (.string s, fs', ts) := by
  show expr (n + 1) level fs (.string s :: ts) = _
  rw [expr, Value.compile]
  split_ifs <;> rfl

theorem expr_boolean (n level : Nat) (fs : FuncState) (b : Bool) (ts : List Token) :
    expr (n + 1) level fs ((Value.boolean b).tokens ++ ts)
      = ((Value.boolean b).compile level fs).map fun fs' => (.boolean b, fs', ts) := by
  rw [Value.compile]
  cases b with
  | true =>
    show expr (n + 1) level fs (.reserved (ascii "true".toList) :: ts) = _
    rw [expr, if_pos rfl]
    split_ifs <;> rfl
  | false =>
    show expr (n + 1) level fs (.reserved (ascii "false".toList) :: ts) = _
    rw [expr, if_neg (by decide : ascii "false".toList ≠ ascii "true".toList), if_pos rfl]
    split_ifs <;> rfl

theorem expr_numeral (n level : Nat) (fs : FuncState) {k : Nat} (hk : (k : Int).natAbs < 10 ^ 14)
    (ts : List Token) :
    expr (n + 1) level fs (.number k :: ts)
      = if level + 1 ≤ LUAI_MAXCCALLS then some (.number ⟨k, hk⟩, fs, ts) else none := by
  rw [expr, dif_pos hk]

theorem expr_minus (n level : Nat) (fs : FuncState) (ts : List Token) :
    expr (n + 1) level fs (.char 45 :: ts)
      = if level + 1 ≤ LUAI_MAXCCALLS then
          (expr n (level + 1) fs ts).bind fun r => r.1.negate.map fun v => (v, r.2)
        else none := by
  rw [expr]

theorem expr_brace (n level : Nat) (fs : FuncState) (ts : List Token) :
    expr (n + 1) level fs (.char 123 :: ts)
      = if level + 1 ≤ LUAI_MAXCCALLS then
          fs.reserveregs.bind fun fs' =>
            (constructor n (level + 1) ⟨fs.freereg, none, 0⟩ fs' .nil 0 ts).map fun r =>
              (.table r.1, r.2)
        else none := by
  rw [expr]

theorem expr_number (n level : Nat) (fs : FuncState) (m : Number) (ts : List Token) :
    expr (n + 2) level fs ((Value.number m).tokens ++ ts)
      = ((Value.number m).compile level fs).map fun fs' => (.number m, fs', ts) := by
  have hnat : ((m.1.natAbs : Nat) : Int).natAbs < 10 ^ 14 := by
    rw [Int.natAbs_natCast]
    exact m.2
  rw [Value.tokens, Value.compile]
  by_cases hneg : m.1 < 0
  · have hback : -((m.1.natAbs : Nat) : Int) = m.1 := by omega
    rw [if_pos hneg, if_pos hneg]
    show expr (n + 2) level fs (.char 45 :: .number m.1.natAbs :: ts) = _
    rw [expr_minus, expr_numeral n (level + 1) fs hnat]
    split_ifs with hlevel hlevel' hlevel'
    · simp only [Option.bind_some, Value.negate, Option.map_some, hback]
    · rfl
    · omega
    · rfl
  · have hback : ((m.1.natAbs : Nat) : Int) = m.1 := by omega
    rw [if_neg hneg, if_neg hneg]
    show expr (n + 2) level fs (.number m.1.natAbs :: ts) = _
    rw [expr_numeral (n + 1) level fs hnat]
    split_ifs with hlevel
    · simp only [Option.map_some, hback]
    · rfl

mutual

theorem Value.expr_tokens : ∀ v : Value, ∃ m, ∀ n, m ≤ n → ∀ level fs ts,
    expr n level fs (v.tokens ++ ts) = (v.compile level fs).map fun fs' => (v.numbered, fs', ts)
  | .string s => ⟨1, fun n hn level fs ts => by
    obtain ⟨n, rfl⟩ := Nat.exists_eq_add_of_le' hn
    exact expr_string n level fs s ts⟩
  | .boolean b => ⟨1, fun n hn level fs ts => by
    obtain ⟨n, rfl⟩ := Nat.exists_eq_add_of_le' hn
    exact expr_boolean n level fs b ts⟩
  | .number k => ⟨2, fun n hn level fs ts => by
    obtain ⟨n, rfl⟩ := Nat.exists_eq_add_of_le' hn
    exact expr_number n level fs k ts⟩
  | .table fields => by
    obtain ⟨m, hm⟩ := Fields.constructor_tokens fields
    refine ⟨m + 1, fun n hn level fs ts => ?_⟩
    obtain ⟨n, rfl⟩ := Nat.exists_eq_add_of_le' (Nat.le_trans (Nat.le_add_left 1 m) hn)
    have hfields := fun level cc fs => hm n (by omega) level cc fs .nil 0 ts
    show expr (n + 1) level fs (.char 123 :: (fields.tokens ++ [.char 125] ++ ts)) = _
    rw [expr_brace, Value.compile, List.append_assoc]
    simp only [List.cons_append, List.nil_append, hfields]
    split_ifs with hlevel
    · cases fs.reserveregs with
      | none => rfl
      | some fs' =>
        rw [Option.bind_some, Option.bind_some, Option.map_map, Value.numbered]
        rfl
    · rfl

/-- **The parser reads the fields**, numbers the lists and takes what it takes. -/
theorem Fields.constructor_tokens : ∀ fields : Fields, ∃ m, ∀ n, m ≤ n →
    ∀ level cc fs before na ts,
    constructor n level cc fs before na (fields.tokens ++ .char 125 :: ts)
      = (fields.compile level cc fs).map fun fs' => (fields.numbered na before, fs', ts)
  | .nil => ⟨1, fun n hn level cc fs before na ts => by
    obtain ⟨n, rfl⟩ := Nat.exists_eq_add_of_le' hn
    rfl⟩
  | .cons k v rest => by
    obtain ⟨m, hm⟩ := Value.expr_tokens v
    obtain ⟨m', hm'⟩ := Fields.constructor_tokens rest
    refine ⟨m + m' + 1, fun n hn level cc fs before na ts => ?_⟩
    obtain ⟨n, rfl⟩ := Nat.exists_eq_add_of_le' (Nat.le_trans (Nat.le_add_left 1 (m + m')) hn)
    have hvalue := hm n (by omega) level
    have hrest := hm' n (by omega) level
    have hts : (Fields.cons k v rest).tokens ++ .char 125 :: ts
        = k.tokens ++ (v.tokens ++ .char 44 :: (rest.tokens ++ .char 125 :: ts)) := by
      simp [Fields.tokens]
    rw [hts, constructor, if_neg (head_tokens k v _), fieldKey_tokens, Fields.compile,
      Fields.numbered]
    cases cc.closelistfield fs with
    | none => rfl
    | some c =>
      simp only [Option.bind_some]
      cases ConsControl.beginField c.2 k.name with
      | none => rfl
      | some fs =>
        simp only [Option.bind_some, hvalue]
        cases v.compile level fs with
        | none => rfl
        | some fs' =>
          simp only [Option.map_some, Option.bind_some, Value.exp_numbered]
          cases c.1.endField c.2.freereg v.exp fs' k.name with
          | none => rfl
          | some d =>
            simp only [Option.bind_some, separator]
            exact hrest d.1 d.2 _ _ ts

end

end DWindow.Lua
