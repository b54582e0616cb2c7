import Mathlib.Data.List.Infix
import Mathlib.Data.List.DropRight

/-!
# Wide strings

A wide string is its UTF-16 code units.  In memory it ends in front of the first
zero, `cstr`, and it is found at a place of a buffer with `cstrAt`; as a value it
is a list without zeros.
-/

namespace WString

def wide (str : List Char) : List UInt16 := str.map (fun c => UInt16.ofNat c.toNat)

def cstr (mem : List UInt16) : List UInt16 := mem.takeWhile (fun c => c != 0)

/-- The string at place `p` of a buffer. -/
def cstrAt (mem : List UInt16) (p : Nat) : List UInt16 := cstr (mem.drop p)

/-- `wcscpy` to place `p` of a buffer, if it fits. -/
def wcscpyAt (mem : List UInt16) (p : Nat) (str : List UInt16) : Option (List UInt16) :=
  if p + str.length + 1 ≤ mem.length then
    some (mem.take p ++ str ++ 0 :: mem.drop (p + str.length + 1))
  else none

/-- `wcsstr`: the first place of `sub`. -/
def findSub (sub : List UInt16) : List UInt16 → Option Nat
  | [] => if sub.isPrefixOf [] then some 0 else none
  | c :: cs => if sub.isPrefixOf (c :: cs) then some 0 else (findSub sub cs).map (· + 1)

/-- Take `c` off both ends. -/
def trim (c : UInt16) (str : List UInt16) : List UInt16 :=
  (str.dropWhile (· == c)).rdropWhile (· == c)

/-- Take `c` off both ends of a string, but leave one of nothing but `c` alone. -/
def wcstrim (c : UInt16) (str : List UInt16) : List UInt16 :=
  if str.all (· == c) then str else trim c str

/-! ## Strings in memory -/

theorem cstr_append {str : List UInt16} (h : (0 : UInt16) ∉ str) (rest : List UInt16) :
    cstr (str ++ 0 :: rest) = str := by
  rw [cstr, List.takeWhile_append_of_pos]
  · rw [List.takeWhile_cons_of_neg (by decide), List.append_nil]
  · intro c hc
    rw [bne_iff_ne]
    rintro rfl
    exact h hc

theorem not_mem_cstr (mem : List UInt16) : (0 : UInt16) ∉ cstr mem := by
  intro h
  exact absurd (List.mem_takeWhile_imp h) (by decide)

theorem not_mem_cstrAt (mem : List UInt16) (p : Nat) : (0 : UInt16) ∉ cstrAt mem p :=
  not_mem_cstr _

theorem cstr_of_not_mem {str : List UInt16} (h : (0 : UInt16) ∉ str) : cstr str = str := by
  rw [cstr, List.takeWhile_eq_self_iff]
  intro c hc
  rw [bne_iff_ne]
  rintro rfl
  exact h hc

theorem cstr_of_head? {mem : List UInt16} (h : mem.head? = some 0) : cstr mem = [] := by
  cases mem with
  | nil => rfl
  | cons c cs =>
    rw [List.head?_cons, Option.some.injEq] at h
    subst h
    rfl

theorem length_wcscpyAt {mem mem' str : List UInt16} {p : Nat}
    (h : wcscpyAt mem p str = some mem') : mem'.length = mem.length := by
  rw [wcscpyAt] at h
  split at h
  · rw [Option.some.injEq] at h
    subst h
    simp only [List.length_append, List.length_take, List.length_cons, List.length_drop]
    omega
  · exact absurd h (by simp)

theorem wcscpyAt_eq_some {mem mem' str : List UInt16} {p : Nat}
    (h : wcscpyAt mem p str = some mem') : p + str.length + 1 ≤ mem.length ∧
      mem' = mem.take p ++ (str ++ 0 :: mem.drop (p + str.length + 1)) := by
  rw [wcscpyAt] at h
  split at h
  · rename_i hle
    rw [Option.some.injEq, List.append_assoc] at h
    exact ⟨hle, h.symm⟩
  · exact absurd h (by simp)

/-- **What was copied is found.** -/
theorem cstrAt_wcscpyAt {mem mem' str : List UInt16} {p : Nat}
    (h : wcscpyAt mem p str = some mem') (h0 : (0 : UInt16) ∉ str) : cstrAt mem' p = str := by
  obtain ⟨hle, rfl⟩ := wcscpyAt_eq_some h
  rw [cstrAt, List.drop_left' (by rw [List.length_take]; omega), cstr_append h0]

theorem exists_terminator (mem : List UInt16) (h : (cstr mem).length < mem.length) :
    ∃ rest, mem = cstr mem ++ 0 :: rest := by
  have hsplit : cstr mem ++ mem.dropWhile (fun c => c != 0) = mem := List.takeWhile_append_dropWhile
  cases hrest : mem.dropWhile (fun c => c != 0) with
  | nil =>
    rw [hrest, List.append_nil] at hsplit
    rw [hsplit] at h
    exact absurd h (Nat.lt_irrefl _)
  | cons c rest =>
    have hc : c = 0 := by
      have hhead := List.head_dropWhile_not (fun c : UInt16 => c != 0) (l := mem)
        (by rw [hrest]; simp)
      simpa [hrest] using hhead
    rw [hrest, hc] at hsplit
    exact ⟨rest, hsplit.symm⟩

/-- **A string in front of the copy stays.** -/
theorem cstrAt_wcscpyAt_of_le {mem mem' str : List UInt16} {p q : Nat}
    (h : wcscpyAt mem p str = some mem') (hq : q + (cstrAt mem q).length + 1 ≤ p) :
    cstrAt mem' q = cstrAt mem q := by
  obtain ⟨hle, rfl⟩ := wcscpyAt_eq_some h
  obtain ⟨rest, hrest⟩ := exists_terminator (mem.drop q)
    (by rw [← cstrAt, List.length_drop]; omega)
  rw [← cstrAt] at hrest
  have htake : (mem.take p).drop q =
      cstrAt mem q ++ 0 :: rest.take (p - q - (cstrAt mem q).length - 1) := by
    rw [List.drop_take, hrest, List.take_append, List.take_of_length_le (by omega)]
    congr 1
    rw [List.take_cons (by omega)]
  rw [cstrAt, List.drop_append_of_le_length (by rw [List.length_take]; omega), htake,
    List.append_assoc, List.cons_append, cstr_append (not_mem_cstrAt _ _)]

/-! ## Finding and trimming -/

/-- A string is found behind what its first character is not in. -/
theorem findSub_append {c : UInt16} {sub : List UInt16} (rest : List UInt16) :
    ∀ {str : List UInt16}, c ∉ str →
      findSub (c :: sub) (str ++ (c :: sub ++ rest)) = some str.length := by
  intro str
  induction str with
  | nil =>
    intro _
    rw [List.nil_append, List.cons_append, findSub, if_pos]
    · rfl
    · exact List.isPrefixOf_iff_prefix.mpr (List.prefix_append (c :: sub) rest)
  | cons x xs ih =>
    intro h
    rw [List.mem_cons, not_or] at h
    have hne : (c :: sub).isPrefixOf (x :: (xs ++ (c :: sub ++ rest))) = false := by
      rw [List.isPrefixOf_cons_cons, Bool.and_eq_false_iff, beq_eq_false_iff_ne]
      exact Or.inl h.1
    rw [List.cons_append, findSub, hne, if_neg (by decide), ih h.2]
    rfl

theorem getElem?_findSub {c : UInt16} : ∀ {str : List UInt16} {p : Nat},
    findSub [c] str = some p → str[p]? = some c := by
  intro str
  induction str with
  | nil => intro p h; cases h
  | cons x xs ih =>
    intro p h
    rw [findSub] at h
    split at h
    · next hp =>
      rw [List.isPrefixOf_cons_cons, Bool.and_eq_true, beq_iff_eq] at hp
      rw [← Option.some.inj h, hp.1]
      rfl
    · obtain ⟨q, hq, rfl⟩ := Option.map_eq_some_iff.mp h
      rw [List.getElem?_cons_succ]
      exact ih hq

theorem findSub_of_not_mem {c : UInt16} {str : List UInt16} (h : c ∉ str) :
    findSub [c] str = none := by
  cases hfind : findSub [c] str with
  | none => rfl
  | some p => exact absurd (List.mem_of_getElem? (getElem?_findSub hfind)) h

theorem findSub_pair {o c : UInt16} (hoc : o ≠ c) {a b : List UInt16} (ho : o ∉ a) (hc : c ∉ a)
    (hb : c ∉ b) (rest : List UInt16) :
    findSub [o] (a ++ o :: (b ++ c :: rest)) = some a.length ∧
      findSub [c] (a ++ o :: (b ++ c :: rest)) = some (a.length + 1 + b.length) := by
  refine ⟨findSub_append _ ho, ?_⟩
  have hlen : a.length + 1 + b.length = (a ++ o :: b).length := by
    rw [List.length_append, List.length_cons]
    omega
  have hfront : c ∉ a ++ o :: b := by simp [hc, hb, hoc.symm]
  rw [show a ++ o :: (b ++ c :: rest) = (a ++ o :: b) ++ c :: rest by simp, hlen]
  exact findSub_append rest hfront

theorem cut_pair (o c : UInt16) (a b rest : List UInt16) :
    (a ++ o :: (b ++ c :: rest)).take a.length ++
      (a ++ o :: (b ++ c :: rest)).drop (a.length + 1 + b.length + 1) = a ++ rest := by
  have hlen : a.length + 1 + b.length = (a ++ o :: b).length := by
    rw [List.length_append, List.length_cons]
    omega
  rw [List.take_left, show a ++ o :: (b ++ c :: rest) = (a ++ o :: b) ++ c :: rest by simp, hlen,
    ← List.drop_drop, List.drop_left]
  rfl

theorem findSub_add_length_le {sub : List UInt16} : ∀ {str : List UInt16} {p : Nat},
    findSub sub str = some p → p + sub.length ≤ str.length := by
  intro str
  induction str with
  | nil =>
    intro p h
    rw [findSub] at h
    split at h
    · next hp =>
      rw [← Option.some.inj h, Nat.zero_add]
      exact (List.isPrefixOf_iff_prefix.mp hp).length_le
    · cases h
  | cons x xs ih =>
    intro p h
    rw [findSub] at h
    split at h
    · next hp =>
      rw [← Option.some.inj h, Nat.zero_add]
      exact (List.isPrefixOf_iff_prefix.mp hp).length_le
    · obtain ⟨q, hq, rfl⟩ := Option.map_eq_some_iff.mp h
      rw [List.length_cons, Nat.add_right_comm]
      exact Nat.succ_le_succ (ih hq)

theorem length_trim_le (c : UInt16) (str : List UInt16) : (trim c str).length ≤ str.length :=
  ((List.rdropWhile_prefix _ _).length_le).trans (List.dropWhile_suffix _).length_le

theorem length_wcstrim_le (c : UInt16) (str : List UInt16) :
    (wcstrim c str).length ≤ str.length := by
  rw [wcstrim]
  split
  · exact le_rfl
  · exact length_trim_le c str

theorem dropWhile_of_head? {c : UInt16} {str : List UInt16} (h : str.head? ≠ some c) :
    str.dropWhile (· == c) = str := by
  cases str with
  | nil => rfl
  | cons x xs =>
    rw [List.head?_cons, ne_eq, Option.some.injEq] at h
    exact List.dropWhile_cons_of_neg (by rwa [beq_iff_eq])

theorem rdropWhile_of_getLast? {c : UInt16} {str : List UInt16} (h : str.getLast? ≠ some c) :
    str.rdropWhile (· == c) = str := by
  rw [List.rdropWhile_eq_self_iff]
  intro hne hlast
  rw [beq_iff_eq] at hlast
  exact h (by rw [List.getLast?_eq_some_getLast hne, hlast])

theorem trim_of_ends {c : UInt16} {str : List UInt16} (hhead : str.head? ≠ some c)
    (hlast : str.getLast? ≠ some c) : trim c str = str := by
  rw [trim, dropWhile_of_head? hhead, rdropWhile_of_getLast? hlast]

theorem trim_cons (c : UInt16) (str : List UInt16) : trim c (c :: str) = trim c str := by
  have hdrop : (c :: str).dropWhile (· == c) = str.dropWhile (· == c) :=
    List.dropWhile_cons_of_pos (beq_self_eq_true c)
  rw [trim, hdrop, trim]

theorem trim_concat {c : UInt16} {str : List UInt16} (hne : str ≠ []) (hhead : str.head? ≠ some c) :
    trim c (str ++ [c]) = trim c str := by
  have hhead' : (str ++ [c]).head? ≠ some c := by rwa [List.head?_append_of_ne_nil _ hne]
  have hdrop : (str ++ [c]).rdropWhile (· == c) = str.rdropWhile (· == c) :=
    List.rdropWhile_concat_pos _ _ _ (beq_self_eq_true c)
  rw [trim, dropWhile_of_head? hhead', hdrop, trim, dropWhile_of_head? hhead]

end WString
