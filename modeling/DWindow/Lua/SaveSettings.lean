import DWindow.Lua.Constructor

/-!
# Saving the settings

`core.save_settings` and `core.load_settings` of `dwindow.lua`: `format_table` writes the
settings as a table constructor, `WriteConfigFile` puts it into a file as a C string, and
`execute_luafile` reads the file in text mode and runs it, which assigns the table to
`tmpsetting` and merges it into `setting`.

`format_table` escapes backslashes and line breaks, but not the double quote.
-/

namespace DWindow.Lua

open CString

/-! ## Writing -/

/-- `string.gsub` of a character. -/
def gsub (c : UInt8) (repl s : List UInt8) : List UInt8 :=
  s.flatMap fun d => if d = c then repl else [d]

/-- The escapes of `format_table`. -/
def escaped (s : List UInt8) : List UInt8 :=
  gsub 10 [92, 110] (gsub 13 [92, 114] (gsub 92 [92, 92] s))

/-- `%s` of `string.format`: `sprintf` writes short strings. -/
def formatS (s : List UInt8) : List UInt8 := if s.length < 100 then s.takeWhile (· ≠ 0) else s

/-- `tostring` of an integer. -/
def numberText (n : Number) : List UInt8 :=
  (if n.1 < 0 then [45] else []) ++ (Decimal.decimal n.1.natAbs).map UInt16.toUInt8

/-- The field of a key with the text `vv` of its value. -/
def line (k : Key) (vv : List UInt8) : List UInt8 :=
  match k with
  | .string s =>
    formatS ([91, 34] ++ escaped s ++ [34, 93]) ++ ascii " = ".toList ++ formatS vv ++ [44]
  | .number _ => formatS vv ++ [44]

/-- `lead` of so many levels. -/
def tabs (level : Nat) : List UInt8 := List.replicate level 9

def concat (o : List (List UInt8)) (sep : List UInt8) : List UInt8 := (o.intersperse sep).flatten

/-- What `format_table` returns for these fields. -/
def tableText (level : Nat) (fields : List (List UInt8)) : List UInt8 :=
  [13, 10] ++ concat ((tabs (level - 1) ++ [123]) :: fields) ([13, 10] ++ tabs level) ++ [13, 10] ++
    tabs (level - 1) ++ [125]

mutual

/-- The text `vv` of a value in a table of a level. -/
def Value.text (level : Nat) : Value → List UInt8
  | .string s => [34] ++ escaped s ++ [34]
  | .boolean true => ascii "true".toList
  | .boolean false => ascii "false".toList
  | .number n => numberText n
  | .table fields => tableText (level + 1) (fields.lines (level + 1))

/-- The fields that `format_table` writes. -/
def Fields.lines (level : Nat) : Fields → List (List UInt8)
  | .nil => []
  | .cons k v rest => line k (v.text level) :: rest.lines level

end

def formatTable (t : Fields) (level : Nat) : List UInt8 := tableText level (t.lines level)

/-- What `core.save_settings` writes. -/
def saveSettings (setting : Fields) : List UInt8 :=
  ascii "tmpsetting = ".toList ++ formatTable setting 1 ++
    ascii "\r\nmerge_table(setting, tmpsetting)\r\n".toList

def writeConfigFile (p : List UInt8) : List UInt8 := p.takeWhile (· ≠ 0)

/-! ## Reading -/

def textMode : List UInt8 → List UInt8
  | [] => []
  | c :: rest =>
    if c = 26 then []
    else if c = 13 ∧ rest.head? = some 10 then textMode rest
    else c :: textMode rest

def mergeTable (op : Fields) : Fields → Fields
  | .nil => op
  | .cons k (.table v) rest =>
    match op.get k with
    | some (.table old) => mergeTable (op.set k (.table (mergeTable old v))) rest
    | _ => mergeTable (op.set k (.table v)) rest
  | .cons k v rest => mergeTable (op.set k v) rest

def tmpsetting : List UInt8 := ascii "tmpsetting".toList

def mergeCall : List Token :=
  [.name (ascii "merge_table".toList), .char 40, .name (ascii "setting".toList), .char 44,
    .name tmpsetting, .char 41]

/-- The table that is assigned to `tmpsetting` by a chunk that does nothing else than that and
the call of `merge_table`. -/
def assigned (n calls : Nat) : List Token → Option Fields
  | .name s :: .char 61 :: ts =>
    if s = tmpsetting then
      match expr n (calls + 1) ⟨[.string tmpsetting], 0⟩ ts with
      | some (.table fields, _, rest) => if rest = mergeCall then some fields else none
      | _ => none
    else none
  | _ => none

/-- The settings behind `core.load_settings`, if the file is a chunk of this form; `calls` is
`L->nCcalls` when the file is compiled. -/
def loadSettings (n calls : Nat) (file : List UInt8) (setting : Fields) : Option Fields :=
  (tokens n (textMode file)).bind fun ts => (assigned n calls ts).map (mergeTable setting)

/-! ## The same settings -/

inductive Leaf
  | string (s : List UInt8)
  | boolean (b : Bool)
  | number (n : Number)
  | table
deriving DecidableEq

def Value.leaf : Value → Leaf
  | .string s => .string s
  | .boolean b => .boolean b
  | .number n => .number n
  | .table _ => .table

/-- What is found behind some keys. -/
def Value.find : Value → List Key → Option Leaf
  | v, [] => some v.leaf
  | .table fields, k :: keys => (fields.get k).bind (·.find keys)
  | _, _ :: _ => none

/-- The same table: the same values under the same keys, whatever `pairs` visits first. -/
def Fields.Same (s t : Fields) : Prop :=
  ∀ keys, (Value.table s).find keys = (Value.table t).find keys

/-- The settings come back: they are loaded over an empty table as they were saved. -/
def Fields.Survives (calls : Nat) (t : Fields) : Prop :=
  ∃ n t', loadSettings n calls (writeConfigFile (saveSettings t)) .nil = some t' ∧ t'.Same t

end DWindow.Lua
