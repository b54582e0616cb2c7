import DWindow.Lib.CInt

/-!
# Settings kept in Lua

`lua_const` and `lua_variable` of `my12doom_lua.cpp`: a setting is a field of a table in Lua,
which both write and read; a `lua_const` keeps a copy with a tag for its kind.  Lua numbers
are doubles: the model takes rational numbers, since every number that comes up with an `int`
or a `DWORD` is one that a double holds, the half that is added to it included.  A conversion
of a double that the target type cannot hold is undefined behaviour and has no result.

Not every value survives the trip: the `bool` of a `lua_variable` is read the wrong way round,
and a `DWORD` is pushed as the signed integer of its bits, of which the way back makes another
one.  `survives_iff` says that these are all that are lost.
-/

namespace DWindow.Lua

open CInt

/-- A value in Lua; of a table what `lua_tointeger` makes of its fields `left`, `right`, `top`
and `bottom`, and of a string the number that it spells, if any. -/
inductive LuaValue
  | nil
  | boolean (b : Bool)
  | number (d : Rat)
  | string (s : List UInt8) (spells : Option Rat)
  | table (left right top bottom : Int)
  | function
deriving DecidableEq

abbrev Table := String → LuaValue

/-- `lua_setfield`. -/
def Table.setField (t : Table) (name : String) (v : LuaValue) : Table :=
  fun field => if field = name then v else t field

/-- What `m_value` holds, and under which `m_type`. -/
inductive ConstValue
  | int (i : Int)
  | double (d : Rat)
  | bool (b : Bool)
  | string (s : List UInt16)
  | rect (left right top bottom : Int)
deriving DecidableEq

/-! ## Conversions -/

def trunc (d : Rat) : Int := if 0 ≤ d then d.floor else d.ceil

/-- The conversion of a double to an `int`. -/
def doubleToInt (d : Rat) : Option Int :=
  if -2 ^ 31 ≤ trunc d ∧ trunc d < 2 ^ 31 then some (trunc d) else none

/-- The conversion of a double to a `DWORD`. -/
def doubleToDWORD (d : Rat) : Option Nat :=
  if 0 ≤ trunc d ∧ trunc d < 2 ^ 32 then some (trunc d).toNat else none

/-- `lua_number2integer`: `fistp` rounds to the nearest, halves to the even one, and stores
the most negative number when there is no room. -/
def number2integer (d : Rat) : Int :=
  let n := if d - d.floor < 1 / 2 then d.floor
    else if 1 / 2 < d - d.floor then d.floor + 1
    else if d.floor % 2 = 0 then d.floor else d.floor + 1
  if -2 ^ 31 ≤ n ∧ n < 2 ^ 31 then n else -2 ^ 31

/-- `lua_pushinteger`, whose argument is a signed integer of 32 bits. -/
def pushInteger (n : Int) : LuaValue := .number (toInt32 n)

/-- `lua_tointeger`. -/
def LuaValue.toInteger : LuaValue → Int
  | .number d => number2integer d
  | .string _ (some d) => number2integer d
  | _ => 0

/-- `lua_toboolean`. -/
def LuaValue.toBoolean : LuaValue → Bool
  | .nil => false
  | .boolean b => b
  | _ => true

/-! ## `lua_const` -/

/-- `lua_const::read_from_lua` over the value that there was; `utf82w` is `UTF82W`. -/
def readFromLua (utf82w : List UInt8 → List UInt16) (old : ConstValue) : LuaValue → ConstValue × Int
  | .number d => (.double d, 0)
  | .table left right top bottom => (.rect left right top bottom, 0)
  | .string s _ => (.string (utf82w s), 0)
  | .boolean b => (.bool b, 0)
  | .nil => (old, -1)
  | .function => (old, -1)

/-- The constructor of `lua_const`. -/
def luaConst (utf82w : List UInt8 → List UInt16) (t : Table) (name : String) : ConstValue :=
  (readFromLua utf82w (.int 0) (t name)).1

namespace ConstValue

/-- `lua_const::operator int`. -/
def toInt : ConstValue → Option Int
  | .int i => some i
  | .double d => doubleToInt (d + 1 / 2 : Rat).floor
  | .bool b => some (if b then 1 else 0)
  | _ => some 0

/-- `lua_const::operator DWORD`.  The conditional expression is a double, of an `int` too. -/
def toDWORD : ConstValue → Option Nat
  | .int i => doubleToDWORD i
  | .double d => doubleToDWORD (d + 1 / 2)
  | _ => some 0

/-- `lua_const::operator bool`. -/
def toBool : ConstValue → Bool
  | .bool b => b
  | .int i => i ≠ 0
  | _ => false

end ConstValue

/-- `lua_const::operator=(int)`. -/
def assignInt (t : Table) (name : String) (v : Int) : Table × ConstValue :=
  (t.setField name (pushInteger v), .int v)

/-- `lua_const::operator=(DWORD)`. -/
def assignDWORD (t : Table) (name : String) (v : Nat) : Table × ConstValue :=
  (t.setField name (pushInteger v), .int (toInt32 v))

/-- `lua_const::operator=(bool)`. -/
def assignBool (t : Table) (name : String) (v : Bool) : Table × ConstValue :=
  (t.setField name (.boolean v), .bool v)

/-! ## `lua_variable` -/

/-- `lua_variable::operator int`. -/
def variableInt (t : Table) (name : String) : Int := (t name).toInteger

/-- `lua_variable::operator=(int)`. -/
def setVariableInt (t : Table) (name : String) (v : Int) : Table := t.setField name (pushInteger v)

/-- `lua_variable::operator bool`. -/
def variableBool (t : Table) (name : String) : Bool := (t name).toBoolean = false

/-- `lua_variable::operator=(bool)`. -/
def setVariableBool (t : Table) (name : String) (v : Bool) : Table := t.setField name (.boolean v)

/-! ## The trip through Lua -/

/-- The class that a setting is written or read through. -/
inductive Access
  | byConst
  | byVariable

namespace Access

def writeInt : Access → Table → String → Int → Table
  | .byConst, t, name, v => (assignInt t name v).1
  | .byVariable, t, name, v => setVariableInt t name v

def writeBool : Access → Table → String → Bool → Table
  | .byConst, t, name, v => (assignBool t name v).1
  | .byVariable, t, name, v => setVariableBool t name v

/-- A `lua_const` is a fresh one. -/
def readInt (utf82w : List UInt8 → List UInt16) : Access → Table → String → Option Int
  | .byConst, t, name => (luaConst utf82w t name).toInt
  | .byVariable, t, name => some (variableInt t name)

def readBool (utf82w : List UInt8 → List UInt16) : Access → Table → String → Bool
  | .byConst, t, name => (luaConst utf82w t name).toBool
  | .byVariable, t, name => variableBool t name

end Access

/-- A value that is assigned to a setting, and through what it is written and read.  A
`lua_variable` has no operators for a `DWORD`. -/
inductive Trip
  | int (written read : Access) (v : Int) (range : -2 ^ 31 ≤ v ∧ v < 2 ^ 31)
  | dword (v : Nat) (range : v < 2 ^ 32)
  | bool (written read : Access) (v : Bool)

section Trip

variable (utf82w : List UInt8 → List UInt16) (t : Table) (name : String)

def Trip.Survives : Trip → Prop
  | .int written read v _ => read.readInt utf82w (written.writeInt t name v) name = some v
  | .dword v _ => (luaConst utf82w (assignDWORD t name v).1 name).toDWORD = some v
  | .bool written read v => read.readBool utf82w (written.writeBool t name v) name = v

def Trip.Faithful : Trip → Prop
  | .int .. => True
  | .dword v _ => v < 2 ^ 31
  | .bool _ read _ => read = .byConst

variable {utf82w t name}

@[simp] theorem setField_self (v : LuaValue) : t.setField name v name = v := by
  simp [Table.setField]

@[simp] theorem luaConst_setField (v : LuaValue) :
    luaConst utf82w (t.setField name v) name = (readFromLua utf82w (.int 0) v).1 := by
  rw [luaConst, setField_self]

/-! ### Numbers that are whole -/

theorem floor_add_half (n : Int) : (n + 1 / 2 : Rat).floor = n := by
  have hhalf : (1 / 2 : Rat).floor = 0 := by decide +kernel
  rw [Rat.add_comm, Rat.floor_add_intCast, hhalf, Int.zero_add]

theorem ceil_add_half (n : Int) : (n + 1 / 2 : Rat).ceil = n + 1 := by
  have hhalf : (1 / 2 : Rat).ceil = 1 := by decide +kernel
  rw [Rat.add_comm, Rat.ceil_add_intCast, hhalf, Int.add_comm]

theorem trunc_intCast (n : Int) : trunc n = n := by
  rw [trunc, Rat.floor_intCast, Rat.ceil_intCast, ite_self]

/-- The half that rounds a positive number up rounds a negative one as well. -/
theorem trunc_add_half (n : Int) : trunc (n + 1 / 2) = if 0 ≤ n then n else n + 1 := by
  have hsign : 0 ≤ (n + 1 / 2 : Rat) ↔ 0 ≤ n := by
    rw [← Rat.intCast_zero, ← Rat.le_floor_iff, floor_add_half]
  rw [trunc, floor_add_half, ceil_add_half]
  by_cases hn : 0 ≤ n
  · rw [if_pos (hsign.mpr hn), if_pos hn]
  · rw [if_neg (fun h => hn (hsign.mp h)), if_neg hn]

theorem doubleToInt_intCast {n : Int} (h : -2 ^ 31 ≤ n ∧ n < 2 ^ 31) :
    doubleToInt n = some n := by
  rw [doubleToInt, trunc_intCast, if_pos h]

theorem number2integer_intCast {n : Int} (h : -2 ^ 31 ≤ n ∧ n < 2 ^ 31) :
    number2integer n = n := by
  have hzero : (n : Rat) - n < 1 / 2 := by
    rw [Rat.sub_self]
    decide +kernel
  simp only [number2integer, Rat.floor_intCast, if_pos hzero, if_pos h]

/-- A `DWORD` comes back if and only if it is an `int`. -/
theorem doubleToDWORD_pushed {v : Nat} (h : v < 2 ^ 32) :
    doubleToDWORD (toInt32 v + 1 / 2) = some v ↔ v < 2 ^ 31 := by
  rw [doubleToDWORD, trunc_add_half]
  by_cases hv : v < 2 ^ 31
  · rw [toInt32_of_lt (by omega) (by omega), if_pos (show (0 : Int) ≤ v by omega),
      if_pos (by omega), Int.toNat_natCast]
    exact iff_of_true rfl hv
  · have hwrap := toInt32_le_sub (n := (v : Int)) (by omega)
    refine iff_of_false ?_ hv
    rw [if_neg (show ¬0 ≤ toInt32 v by omega)]
    split
    · rw [Option.some.injEq]
      omega
    · exact fun h => by cases h

theorem writeInt_eq (written : Access) (v : Int) :
    written.writeInt t name v = t.setField name (pushInteger v) := by
  cases written with
  | byConst => rfl
  | byVariable => rfl

theorem writeBool_eq (written : Access) (v : Bool) :
    written.writeBool t name v = t.setField name (.boolean v) := by
  cases written with
  | byConst => rfl
  | byVariable => rfl

theorem readInt_pushed (read : Access) {v : Int} (range : -2 ^ 31 ≤ v ∧ v < 2 ^ 31) :
    read.readInt utf82w (t.setField name (pushInteger v)) name = some v := by
  rw [pushInteger, toInt32_of_lt range.1 range.2]
  cases read with
  | byConst =>
    rw [Access.readInt, luaConst_setField, readFromLua, ConstValue.toInt, floor_add_half]
    exact doubleToInt_intCast range
  | byVariable =>
    rw [Access.readInt, Lua.variableInt, setField_self, LuaValue.toInteger]
    exact congrArg some (number2integer_intCast range)

theorem readBool_pushed (read : Access) (v : Bool) :
    read.readBool utf82w (t.setField name (.boolean v)) name = v ↔ read = .byConst := by
  cases read with
  | byConst =>
    refine iff_of_true ?_ rfl
    rw [Access.readBool, luaConst_setField, readFromLua, ConstValue.toBool]
  | byVariable =>
    refine iff_of_false ?_ fun h => by cases h
    rw [Access.readBool, Lua.variableBool, setField_self, LuaValue.toBoolean]
    cases v with
    | false => decide
    | true => decide

end Trip

/-- **Settings survive the trip through Lua** if and only if they are faithful. -/
theorem survives_iff (utf82w : List UInt8 → List UInt16) (t : Table) (name : String)
    (trip : Trip) : trip.Survives utf82w t name ↔ trip.Faithful := by
  cases trip with
  | int written read v range =>
    refine iff_of_true ?_ trivial
    rw [Trip.Survives, writeInt_eq]
    exact readInt_pushed read range
  | dword v range =>
    rw [Trip.Survives, assignDWORD, luaConst_setField, pushInteger, readFromLua,
      ConstValue.toDWORD, Trip.Faithful]
    exact doubleToDWORD_pushed range
  | bool written read v =>
    rw [Trip.Survives, writeBool_eq]
    exact readBool_pushed read v

/-- `true` in a `lua_variable` is read as `false`, and the largest `DWORD` in a `lua_const`
as 0. -/
theorem settings_lost :
    variableBool (setVariableBool (fun _ => .nil) "fullscreen" true) "fullscreen" = false ∧
      (luaConst (fun _ => []) (assignDWORD (fun _ => .nil) "LCID" 0xffffffff).1 "LCID").toDWORD =
        some 0 ∧
      ¬(Trip.bool .byVariable .byVariable true).Survives (fun _ => []) (fun _ => .nil) "fullscreen" ∧
      ¬(Trip.dword 0xffffffff (by decide)).Survives (fun _ => []) (fun _ => .nil) "LCID" := by
  have hbool : variableBool (setVariableBool (fun _ => .nil) "fullscreen" true) "fullscreen" =
      false := by decide
  have hread : (luaConst (fun _ => []) (assignDWORD (fun _ => .nil) "LCID" 0xffffffff).1
      "LCID").toDWORD = some 0 := by
    rw [assignDWORD, luaConst_setField]
    decide +kernel
  refine ⟨hbool, hread, fun h => ?_, fun h => ?_⟩
  · rw [Trip.Survives, Access.readBool, Access.writeBool, hbool] at h
    exact absurd h (by decide)
  · rw [Trip.Survives, hread] at h
    exact absurd h (by decide)

end DWindow.Lua
