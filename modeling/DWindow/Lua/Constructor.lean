import DWindow.Lua.Lexer

/-!
# Table constructors

What `lparser.c` and `lcode.c` do with an expression that is a constant or a table constructor:
the value that the compiled code makes, and the constants, the registers and the levels of calls
that the compiler takes for it, which are limited.  `expr` refuses every other expression,
whether Lua compiles it or not.

The fields of a table stand in the order in which `pairs` visits them.
-/

namespace DWindow.Lua

open CString

/-! ## Values -/

inductive Key
  | string (s : List UInt8)
  | number (i : Nat)
deriving DecidableEq

/-- An integer that `%.14g` writes with all its digits. -/
abbrev Number := {n : Int // n.natAbs < 10 ^ 14}

mutual

inductive Value
  | string (s : List UInt8)
  | boolean (b : Bool)
  | number (n : Number)
  | table (fields : Fields)

inductive Fields
  | nil
  | cons (k : Key) (v : Value) (rest : Fields)

end

def Fields.get : Fields → Key → Option Value
  | .nil, _ => none
  | .cons k v rest, key => if k = key then some v else rest.get key

def Fields.set : Fields → Key → Value → Fields
  | .nil, key, w => .cons key w .nil
  | .cons k v rest, key, w => if k = key then .cons k w rest else .cons k v (rest.set key w)

/-! ## The compiler -/

def LUAI_MAXCCALLS : Nat := 200
def MAXSTACK : Nat := 250
def MAXINDEXRK : Nat := 255
def LFIELDS_PER_FLUSH : Nat := 50

inductive Constant
  | string (s : List UInt8)
  | number (n : Number)
  | boolean (b : Bool)
deriving DecidableEq

/-- `FuncState`: the constants in their order, and the first register that is free. -/
structure FuncState where
  k : List Constant
  freereg : Nat

/-- What `expdesc` tells about a value: a table is in a register already. -/
inductive Exp
  | constant (c : Constant)
  | nonreloc
deriving DecidableEq

def Value.exp : Value → Exp
  | .string s => .constant (.string s)
  | .boolean b => .constant (.boolean b)
  | .number n => .constant (.number n)
  | .table _ => .nonreloc

namespace FuncState

def addk (fs : FuncState) (c : Constant) : FuncState :=
  if c ∈ fs.k then fs else { fs with k := fs.k ++ [c] }

/-- `luaK_reserveregs`, for one register. -/
def reserveregs (fs : FuncState) : Option FuncState :=
  if fs.freereg + 1 < MAXSTACK then some { fs with freereg := fs.freereg + 1 } else none

/-- `luaK_exp2RK`: a constant with a small index needs no register. -/
def exp2RK (fs : FuncState) : Exp → Option FuncState
  | .nonreloc => some fs
  | .constant (.boolean b) =>
    if fs.k.length ≤ MAXINDEXRK then some (fs.addk (.boolean b)) else fs.reserveregs
  | .constant c =>
    if (fs.addk c).k.idxOf c ≤ MAXINDEXRK then some (fs.addk c) else (fs.addk c).reserveregs

/-- `luaK_exp2nextreg`; a table is in the next register. -/
def exp2nextreg (fs : FuncState) : Exp → Option FuncState
  | .nonreloc => some fs
  | .constant (.boolean _) => fs.reserveregs
  | .constant c => fs.reserveregs.map (addk · c)

end FuncState

/-- `ConsControl`: the register of the table, the last item of the list if it is not in a
register yet, and the number of items that are not in the table yet. -/
structure ConsControl where
  t : Nat
  v : Option Exp
  tostore : Nat

namespace ConsControl

def closelistfield (cc : ConsControl) (fs : FuncState) : Option (ConsControl × FuncState) :=
  match cc.v with
  | none => some (cc, fs)
  | some v => (fs.exp2nextreg v).map fun fs =>
    if cc.tostore = LFIELDS_PER_FLUSH then
      ({ cc with v := none, tostore := 0 }, { fs with freereg := cc.t + 1 })
    else ({ cc with v := none }, fs)

def lastlistfield (cc : ConsControl) (fs : FuncState) : Option FuncState :=
  if cc.tostore = 0 then some fs
  else match cc.v with
    | none => some { fs with freereg := cc.t + 1 }
    | some v => (fs.exp2nextreg v).map fun fs => { fs with freereg := cc.t + 1 }

/-- What a field does in front of its value, which has a key in `recfield` and none in
`listfield`. -/
def beginField (fs : FuncState) : Option (List UInt8) → Option FuncState
  | none => some fs
  | some key => (fs.addk (.string key)).exp2RK (.constant (.string key))

/-- What a field does behind its value; `reg` was the first free register in front of it. -/
def endField (cc : ConsControl) (reg : Nat) (v : Exp) (fs : FuncState) :
    Option (List UInt8) → Option (ConsControl × FuncState)
  | none => some ({ cc with v := some v, tostore := cc.tostore + 1 }, fs)
  | some _ => (fs.exp2RK v).map fun fs => (cc, { fs with freereg := reg })

end ConsControl

/-! ## The parser -/

/-- The field that is assigned: that of the key, or the next one of the list.  `na` is the
number of items. -/
def Fields.put (fields : Fields) (na : Nat) (v : Value) : Option (List UInt8) → Fields × Nat
  | none => (fields.set (.number (na + 1)) v, na + 1)
  | some key => (fields.set (.string key) v, na)

/-- The key in front of the value of a field, with its `=`, and what follows. -/
def fieldKey : List Token → Option (List UInt8) × List Token
  | .name s :: .char 61 :: ts => (some s, ts)
  | .char 91 :: .string s :: .char 93 :: .char 61 :: ts => (some s, ts)
  | ts => (none, ts)

/-- The separator behind a field, which may be left out in front of the end. -/
def separator : List Token → Option (List Token)
  | .char 44 :: ts => some ts
  | .char 59 :: ts => some ts
  | .char 125 :: ts => some (.char 125 :: ts)
  | _ => none

def Value.negate : Value → Option Value
  | .number n => some (.number ⟨-n.1, by rw [Int.natAbs_neg]; exact n.2⟩)
  | _ => none

mutual

/-- `subexpr` and `simpleexp`, with so many calls at most: `level` is `L->nCcalls` in front of
the call. -/
def expr : Nat → Nat → FuncState → List Token → Option (Value × FuncState × List Token)
  | 0, _, _, _ => none
  | n + 1, level, fs, ts =>
    if level + 1 ≤ LUAI_MAXCCALLS then
      match ts with
      | .string s :: ts => some (.string s, fs.addk (.string s), ts)
      | .number m :: ts =>
        if h : (m : Int).natAbs < 10 ^ 14 then some (.number ⟨m, h⟩, fs, ts) else none
      | .reserved w :: ts =>
        if w = ascii "true".toList then some (.boolean true, fs, ts)
        else if w = ascii "false".toList then some (.boolean false, fs, ts)
        else none
      | .char 45 :: ts =>
        (expr n (level + 1) fs ts).bind fun r => r.1.negate.map fun v => (v, r.2)
      | .char 123 :: ts =>
        fs.reserveregs.bind fun fs' =>
          (constructor n (level + 1) ⟨fs.freereg, none, 0⟩ fs' .nil 0 ts).map fun r =>
            (.table r.1, r.2)
      | _ => none
    else none

/-- The loop of `constructor`, behind the opening brace. -/
def constructor : Nat → Nat → ConsControl → FuncState → Fields → Nat → List Token →
    Option (Fields × FuncState × List Token)
  | 0, _, _, _, _, _, _ => none
  | n + 1, level, cc, fs, fields, na, ts =>
    if ts.head? = some (.char 125) then
      (cc.lastlistfield fs).map fun fs => (fields, fs, ts.tail)
    else
      (cc.closelistfield fs).bind fun c =>
      (ConsControl.beginField c.2 (fieldKey ts).1).bind fun fs =>
      (expr n level fs (fieldKey ts).2).bind fun e =>
      (c.1.endField c.2.freereg e.1.exp e.2.1 (fieldKey ts).1).bind fun d =>
      (separator e.2.2).bind fun ts' =>
        let p := fields.put na e.1 (fieldKey ts).1
        constructor n level d.1 d.2 p.1 p.2 ts'

end

end DWindow.Lua
