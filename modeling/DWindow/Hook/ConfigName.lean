import DWindow.Cache.Reload

/-!
# The names of the cache's files

`HTTPHook::create` names the config file of a URL after the `crc32` of its characters, in the
folder `cache` next to the log file, and the files of the fragments are named after the config
file.  Names of different checksums are different (`config_ne_of_crc_ne` and the two beside
it), as long as they fit their buffers.

The folder is given in its buffer, as `inet_file` gets it after the conversions.
-/

namespace DWindow.Hook

open Cache LittleEndian WString

/-- An entry of `crc_tbl`. -/
def crcTbl (b : UInt8) : UInt32 :=
  (List.range 8).foldl (fun (crc2 : UInt32) _ =>
    if crc2 &&& 1 ≠ 0 then (crc2 >>> 1) ^^^ 0xedb88320 else crc2 >>> 1) b.toUInt32

def crc32 (crc : UInt32) (p : List UInt8) : UInt32 :=
  p.foldl (fun (crc : UInt32) b => crcTbl (crc ^^^ b.toUInt32).toUInt8 ^^^ (crc >>> 8))
    (crc ^^^ 0xffffffff) ^^^ 0xffffffff

def nameCrc (url : List UInt16) : UInt32 := crc32 0 (url.flatMap fun c => toLE 2 c.toNat)

/-- A digit of `%x`. -/
def hexDigit (d : Nat) : UInt16 := UInt16.ofNat (if d < 10 then 48 + d else 87 + d)

/-- `%08x`. -/
def hex8 (n : UInt32) : List UInt16 :=
  (List.range 8).map fun i => hexDigit (n.toNat / 16 ^ (7 - i) % 16)

/-- `config_file`. -/
def configName (folder : List UInt16) (url : List UInt16) : List UInt16 :=
  cstr folder ++ hex8 (nameCrc url)

/-! ## Different names -/

theorem hexDigit_inj : ∀ a < 16, ∀ b < 16, hexDigit a = hexDigit b → a = b := by decide

theorem hexDigit_ne_zero : ∀ d < 16, hexDigit d ≠ 0 := by decide

theorem length_hex8 (n : UInt32) : (hex8 n).length = 8 := by
  rw [hex8, List.length_map, List.length_range]

/-- The lowest digits of a number, from the highest one on, are worth its rest. -/
theorem foldl_digits (b : Nat) : ∀ k n : Nat,
    ((List.range k).map fun i => n / b ^ (k - 1 - i) % b).foldl (fun n d => b * n + d) 0 =
      n % b ^ k := by
  intro k
  induction k with
  | zero =>
    intro n
    rw [pow_zero, Nat.mod_one]
    rfl
  | succ k ih =>
    intro n
    have hfront : ((List.range k).map fun i => n / b ^ (k + 1 - 1 - i) % b) =
        (List.range k).map fun i => n / b / b ^ (k - 1 - i) % b := by
      apply List.map_congr_left
      intro i hi
      rw [List.mem_range] at hi
      rw [Nat.div_div_eq_div_mul, ← pow_succ', show k - 1 - i + 1 = k + 1 - 1 - i by omega]
    rw [List.range_succ, List.map_append, List.foldl_append, hfront, ih, List.map_singleton,
      List.foldl_cons, List.foldl_nil, Nat.add_sub_cancel, Nat.sub_self, pow_zero, Nat.div_one,
      pow_succ', Nat.mod_mul, Nat.add_comm]

theorem foldl_digits_toNat (n : UInt32) :
    ((List.range 8).map fun i => n.toNat / 16 ^ (7 - i) % 16).foldl (fun n d => 16 * n + d) 0 =
      n.toNat :=
  (foldl_digits 16 8 n.toNat).trans (Nat.mod_eq_of_lt n.toNat_lt)

theorem hex8_injective : Function.Injective hex8 := by
  intro m n h
  have hdigits : ((List.range 8).map fun i => m.toNat / 16 ^ (7 - i) % 16) =
      (List.range 8).map fun i => n.toNat / 16 ^ (7 - i) % 16 := by
    apply List.map_congr_left
    intro i hi
    refine hexDigit_inj _ (Nat.mod_lt _ (by decide)) _ (Nat.mod_lt _ (by decide)) ?_
    exact List.map_inj_left.mp h i hi
  have hvalue := congrArg (List.foldl (fun n d => 16 * n + d) 0) hdigits
  rw [foldl_digits_toNat, foldl_digits_toNat] at hvalue
  exact UInt32.toNat_inj.mp hvalue

theorem ne_zero_of_mem_hex8 {n : UInt32} {c : UInt16} (h : c ∈ hex8 n) : c ≠ 0 := by
  obtain ⟨i, -, rfl⟩ := List.mem_map.mp h
  exact hexDigit_ne_zero _ (Nat.mod_lt _ (by decide))

theorem zero_notMem_configName (folder url : List UInt16) :
    (0 : UInt16) ∉ configName folder url := by
  rw [configName, List.mem_append, not_or]
  exact ⟨not_mem_cstr _, fun h => ne_zero_of_mem_hex8 h rfl⟩

theorem cstr_configName (folder url : List UInt16) :
    cstr (configName folder url) = configName folder url := by
  rw [cstr, List.takeWhile_eq_self_iff]
  intro c hc
  rw [bne_iff_ne]
  rintro rfl
  exact zero_notMem_configName folder url hc

theorem length_configName (folder url : List UInt16) :
    (configName folder url).length = (cstr folder).length + 8 := by
  rw [configName, List.length_append, length_hex8]

/-- **Config files of different checksums** have different names. -/
theorem nameCrc_eq_of_configName_eq {folder u v : List UInt16}
    (h : configName folder u = configName folder v) : nameCrc u = nameCrc v :=
  hex8_injective (List.append_cancel_left h)

theorem configName_ne_fragmentName {folder u v : List UInt16} {i : Nat}
    (h : NameFits (configName folder v) i) :
    configName folder u ≠ fragmentName (configName folder v) i := by
  intro heq
  have hlength := congrArg List.length heq
  rw [fragmentName_of_fits h, List.length_append, List.length_append, length_configName,
    length_configName, List.length_singleton] at hlength
  omega

/-- **Fragments of different checksums** have files of different names. -/
theorem nameCrc_eq_of_fragmentName_eq {folder u v : List UInt16} {i j : Nat}
    (hi : NameFits (configName folder u) i) (hj : NameFits (configName folder v) j)
    (h : fragmentName (configName folder u) i = fragmentName (configName folder v) j) :
    nameCrc u = nameCrc v := by
  rw [fragmentName_of_fits hi, fragmentName_of_fits hj, List.append_assoc, List.append_assoc] at h
  have hlength : (configName folder u).length = (configName folder v).length := by
    rw [length_configName, length_configName]
  exact nameCrc_eq_of_configName_eq (List.append_inj_left h hlength)

end DWindow.Hook
