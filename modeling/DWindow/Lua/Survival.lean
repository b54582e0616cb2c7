import DWindow.Lua.Compiled

/-!
# Which settings survive

`core.load_settings` runs what `core.save_settings` has written.  As long as no string has a
double quote, a zero or the end of a text file in it, the chunk is the assignment of the table
and the call of `merge_table`, and nothing else; the table is as it was if and only if the
compiler takes it and the lists are numbered as `pairs` visits them: `settings_survive_iff`.
A double quote ends its string (`quoted_lost`).
-/

namespace DWindow.Lua

/-! ## Assignments to fields -/

theorem Fields.get_set : ∀ (fields : Fields) (key : Key) (w : Value) (k : Key),
    (fields.set key w).get k = if key = k then some w else fields.get k
  | .nil, key, w, k => rfl
  | .cons j v rest, key, w, k => by
    rw [Fields.set]
    split_ifs with hj hk hk
    · rw [Fields.get, if_pos (hj.trans hk)]
    · have hjk : j ≠ k := fun h => hk (hj.symm.trans h)
      rw [Fields.get, Fields.get, if_neg hjk, if_neg hjk]
    · rw [Fields.get, if_neg fun h => hj (h.trans hk.symm), Fields.get_set, if_pos hk]
    · rw [Fields.get, Fields.get, Fields.get_set, if_neg hk]

def Fields.Distinct : Fields → Prop
  | .nil => True
  | .cons k _ rest => rest.get k = none ∧ rest.Distinct

theorem Fields.Distinct.set : ∀ (fields : Fields) (key : Key) (w : Value), fields.Distinct →
    (fields.set key w).Distinct
  | .nil, _, _, _ => ⟨rfl, trivial⟩
  | .cons k v rest, key, w, h => by
    rw [Fields.set]
    split_ifs with hk
    · exact h
    · exact ⟨by rw [Fields.get_set, if_neg (Ne.symm hk), h.1], Fields.Distinct.set rest key w h.2⟩

theorem Fields.Distinct.numbered : ∀ (fields : Fields) (na : Nat) (before : Fields),
    before.Distinct → (fields.numbered na before).Distinct
  | .nil, _, _, h => h
  | .cons k v rest, na, before, h => by
    rw [Fields.numbered]
    refine Fields.Distinct.numbered rest _ _ ?_
    cases k with
    | string s => exact Fields.Distinct.set before _ _ h
    | number i => exact Fields.Distinct.set before _ _ h

theorem get_mergeTable : ∀ (fields op : Fields), fields.Distinct →
    (∀ k, fields.get k ≠ none → op.get k = none) →
    ∀ k, (mergeTable op fields).get k = (fields.get k).or (op.get k)
  | .nil, op, _, _, k => rfl
  | .cons j v rest, op, h, hop, k => by
    have hj : op.get j = none := hop j (by rw [Fields.get, if_pos rfl]; exact Option.some_ne_none v)
    have hmerge : mergeTable op (.cons j v rest) = mergeTable (op.set j v) rest := by
      cases v with
      | table fields => rw [mergeTable, hj]
      | string s => rfl
      | boolean b => rfl
      | number n => rfl
    have hrest : ∀ k, rest.get k ≠ none → (op.set j v).get k = none := by
      intro k hk
      have hjk : j ≠ k := fun hjk => hk (hjk ▸ h.1)
      rw [Fields.get_set, if_neg hjk]
      exact hop k (by rwa [Fields.get, if_neg hjk])
    rw [hmerge, get_mergeTable rest _ h.2 hrest, Fields.get_set, Fields.get]
    split_ifs with hjk
    · rw [← hjk, h.1, hj]
      rfl
    · rfl

/-! ## The same table -/

theorem Fields.same_of_get {s t : Fields} (h : ∀ k, s.get k = t.get k) : s.Same t := by
  intro keys
  cases keys with
  | nil => rfl
  | cons k keys => rw [Value.find, Value.find, h k]

theorem Fields.Same.trans {s t u : Fields} (h : s.Same t) (h' : t.Same u) : s.Same u :=
  fun keys => (h keys).trans (h' keys)

theorem Fields.Same.symm {s t : Fields} (h : s.Same t) : t.Same s := fun keys => (h keys).symm

/-! ## Lists in order -/

mutual

def Value.InOrder : Value → Prop
  | .table fields => fields.Distinct ∧ fields.InOrder 0
  | _ => True

/-- `pairs` visits the items of the lists one after the other, behind `na` items. -/
def Fields.InOrder : Fields → Nat → Prop
  | .nil, _ => True
  | .cons (.string _) v rest, na => v.InOrder ∧ rest.InOrder na
  | .cons (.number i) v rest, na => i = na + 1 ∧ v.InOrder ∧ rest.InOrder (na + 1)

end

def Fields.append : Fields → Fields → Fields
  | .nil, t => t
  | .cons k v rest, t => .cons k v (rest.append t)

theorem Fields.append_assoc : ∀ s t u : Fields, (s.append t).append u = s.append (t.append u)
  | .nil, _, _ => rfl
  | .cons k v rest, t, u => by rw [append, append, append, append_assoc rest]

theorem Fields.set_eq_append : ∀ (s : Fields) (k : Key) (v : Value), s.get k = none →
    s.set k v = s.append (.cons k v .nil)
  | .nil, _, _, _ => rfl
  | .cons j w rest, k, v, h => by
    have hjk : j ≠ k := fun hjk => by
      rw [Fields.get, if_pos hjk] at h
      exact Option.some_ne_none w h
    rw [Fields.get, if_neg hjk] at h
    rw [Fields.set, if_neg hjk, Fields.append, Fields.set_eq_append rest k v h]

theorem Fields.get_append : ∀ (s t : Fields) (k : Key), (s.append t).get k = (s.get k).or (t.get k)
  | .nil, _, _ => rfl
  | .cons j w rest, t, k => by
    rw [append, get, get, get_append rest]
    split_ifs <;> rfl

theorem Fields.append_nil (s : Fields) : s.append .nil = s := by
  cases s with
  | nil => rfl
  | cons k v rest => rw [append, append_nil rest]

theorem Fields.Distinct.get_left : ∀ {s : Fields} {k : Key} {v : Value} {t : Fields},
    (s.append (.cons k v t)).Distinct → s.get k = none
  | .nil, _, _, _, _ => rfl
  | .cons j w rest, k, v, t, h => by
    have hjk : j ≠ k := fun hjk => by
      have := h.1
      rw [Fields.get_append, Fields.get, if_pos hjk.symm] at this
      exact Option.some_ne_none v (Option.or_eq_none_iff.mp this).2
    rw [Fields.get, if_neg hjk]
    exact Fields.Distinct.get_left h.2

mutual

theorem Value.numbered_of_inOrder : ∀ v : Value, v.InOrder → v.numbered = v
  | .string _, _ => rfl
  | .boolean _, _ => rfl
  | .number _, _ => rfl
  | .table fields, h => by
    rw [Value.numbered, Fields.numbered_of_inOrder fields 0 .nil h.2 h.1]
    rfl

/-- **Lists in order come back in order.** -/
theorem Fields.numbered_of_inOrder : ∀ (fields : Fields) (na : Nat) (before : Fields),
    fields.InOrder na → (before.append fields).Distinct →
      fields.numbered na before = before.append fields
  | .nil, _, before, _, _ => (Fields.append_nil before).symm
  | .cons (.string s) v rest, na, before, h, hdistinct => by
    have hset := Fields.set_eq_append before (.string s) v hdistinct.get_left
    have happend : (before.append (.cons (.string s) v .nil)).append rest
        = before.append (.cons (.string s) v rest) := Fields.append_assoc _ _ _
    rw [← happend] at hdistinct ⊢
    rw [Fields.numbered, Value.numbered_of_inOrder v h.1]
    show rest.numbered na (before.set (.string s) v) = _
    rw [hset, Fields.numbered_of_inOrder rest na _ h.2 hdistinct]
  | .cons (.number i) v rest, na, before, h, hdistinct => by
    obtain ⟨rfl, hv, hrest⟩ := h
    have hset := Fields.set_eq_append before (.number (na + 1)) v hdistinct.get_left
    have happend : (before.append (.cons (.number (na + 1)) v .nil)).append rest
        = before.append (.cons (.number (na + 1)) v rest) := Fields.append_assoc _ _ _
    rw [← happend] at hdistinct ⊢
    rw [Fields.numbered, Value.numbered_of_inOrder v hv]
    show rest.numbered (na + 1) (before.set (.number (na + 1)) v) = _
    rw [hset, Fields.numbered_of_inOrder rest (na + 1) _ hrest hdistinct]

end

theorem Fields.same_of_inOrder {t : Fields} (h : (Value.table t).InOrder) :
    (t.numbered 0 .nil).Same t := by
  rw [Fields.numbered_of_inOrder t 0 .nil h.2 h.1]
  exact fun _ => rfl

/-! ## What is loaded -/

/-- What the chunk assigns to `tmpsetting`, with enough turns. -/
theorem exists_assigned (calls : Nat) (t : Fields) : ∃ m, ∀ n, m ≤ n →
    assigned n calls (.name tmpsetting :: .char 61 :: (Value.table t).tokens ++ mergeCall)
      = if t.Fits calls then some (t.numbered 0 .nil) else none := by
  obtain ⟨m, hm⟩ := Value.expr_tokens (.table t)
  refine ⟨m, fun n hn => ?_⟩
  rw [List.cons_append, List.cons_append, assigned, if_pos rfl, hm n hn]
  by_cases hfits : t.Fits calls
  · obtain ⟨fs, hfs⟩ := Option.isSome_iff_exists.mp hfits
    rw [hfs, Option.map_some, Value.numbered, if_pos hfits]
    exact if_pos rfl
  · have hnone := Option.not_isSome_iff_eq_none.mp hfits
    rw [hnone, if_neg hfits]
    rfl

theorem loadSettings_eq {n calls : Nat} {file : List UInt8} {ts : List Token} {setting : Fields}
    (h : tokens n (textMode file) = some ts) :
    loadSettings n calls file setting = (assigned n calls ts).map (mergeTable setting) := by
  rw [loadSettings, h, Option.bind_some]

theorem tokens_mono {n m : Nat} (hnm : n ≤ m) {text : List UInt8} {ts : List Token}
    (h : tokens n text = some ts) : tokens m text = some ts := by
  induction n generalizing m text ts with
  | zero => exact absurd h (Option.some_ne_none ts ∘ Eq.symm)
  | succ n ih =>
    obtain ⟨m, rfl⟩ := Nat.exists_eq_add_of_le' (Nat.le_trans (Nat.le_add_left 1 n) hnm)
    rw [tokens] at h ⊢
    obtain ⟨r, hr, h⟩ := Option.bind_eq_some_iff.mp h
    rw [hr, Option.bind_some]
    cases r with
    | none => exact h
    | some r =>
      obtain ⟨us, hus, rfl⟩ := Option.map_eq_some_iff.mp h
      exact congrArg (Option.map (r.1 :: ·)) (ih (by omega) hus)

theorem parse_mono (n : Nat) : ∀ m, n ≤ m →
    (∀ level fs ts r, expr n level fs ts = some r → expr m level fs ts = some r) ∧
      ∀ level cc fs before na ts r, constructor n level cc fs before na ts = some r →
        constructor m level cc fs before na ts = some r := by
  induction n with
  | zero =>
    exact fun m _ => ⟨fun _ _ _ _ h => absurd h (Option.some_ne_none _ ∘ Eq.symm),
      fun _ _ _ _ _ _ _ h => absurd h (Option.some_ne_none _ ∘ Eq.symm)⟩
  | succ n ih =>
    intro m hnm
    obtain ⟨m, rfl⟩ := Nat.exists_eq_add_of_le' (Nat.le_trans (Nat.le_add_left 1 n) hnm)
    obtain ⟨hexpr, hconstructor⟩ := ih m (by omega)
    constructor
    · intro level fs ts r h
      unfold expr at h ⊢
      split_ifs at h ⊢
      split at h <;> try exact h
      · obtain ⟨e, he, h⟩ := Option.bind_eq_some_iff.mp h
        rw [hexpr _ _ _ _ he]
        exact h
      · obtain ⟨fs', hfs', h⟩ := Option.bind_eq_some_iff.mp h
        obtain ⟨e, he, h⟩ := Option.map_eq_some_iff.mp h
        rw [hfs', Option.bind_some, hconstructor _ _ _ _ _ _ _ he]
        exact congrArg some h
    · intro level cc fs before na ts r h
      rw [constructor] at h ⊢
      split_ifs at h ⊢
      · exact h
      · obtain ⟨c, hc, h⟩ := Option.bind_eq_some_iff.mp h
        obtain ⟨fs', hfs', h⟩ := Option.bind_eq_some_iff.mp h
        obtain ⟨e, he, h⟩ := Option.bind_eq_some_iff.mp h
        obtain ⟨d, hd, h⟩ := Option.bind_eq_some_iff.mp h
        obtain ⟨ts', hts', h⟩ := Option.bind_eq_some_iff.mp h
        rw [hc, Option.bind_some, hfs', Option.bind_some, hexpr _ _ _ _ he, Option.bind_some, hd,
          Option.bind_some, hts', Option.bind_some]
        exact hconstructor _ _ _ _ _ _ _ h

theorem assigned_mono {n m : Nat} (hnm : n ≤ m) {calls : Nat} {ts : List Token} {t : Fields}
    (h : assigned n calls ts = some t) : assigned m calls ts = some t := by
  unfold assigned at h ⊢
  split at h
  · split_ifs at h ⊢
    split at h
    · next hexpr =>
      rw [(parse_mono n m hnm).1 _ _ _ _ hexpr]
      exact h
    · cases h
  · cases h

/-- **Settings survive** as long as no string has a double quote, a zero or the end of a text
file in it: exactly if the compiler takes their table, and numbering the lists in the order of
`pairs` does not change it. -/
theorem settings_survive_iff (calls : Nat) {t : Fields} (h : t.All Clean) :
    t.Survives calls ↔ (t.numbered 0 .nil).Same t ∧ t.Fits calls := by
  obtain ⟨k, hk⟩ := saveSettings_reads h
  obtain ⟨m, hm⟩ := exists_assigned calls t
  have hmerge : (mergeTable .nil (t.numbered 0 .nil)).Same (t.numbered 0 .nil) := by
    refine Fields.same_of_get fun key => ?_
    rw [get_mergeTable _ .nil (Fields.Distinct.numbered t 0 .nil trivial) (fun _ _ => rfl) key]
    exact Option.or_none
  constructor
  · rintro ⟨n, t', hload, hsame⟩
    obtain ⟨ts, hts, hload⟩ := Option.bind_eq_some_iff.mp hload
    obtain ⟨t'', hassigned, rfl⟩ := Option.map_eq_some_iff.mp hload
    rw [Reads.unique ⟨n, hts⟩ ⟨k, hk⟩] at hassigned
    have := hm _ (Nat.le_max_left m n)
    rw [assigned_mono (Nat.le_max_right m n) hassigned] at this
    split_ifs at this with hfits
    rw [Option.some.inj this] at hsame
    exact ⟨hmerge.symm.trans hsame, hfits⟩
  · rintro ⟨hsame, hfits⟩
    refine ⟨max k m, mergeTable .nil (t.numbered 0 .nil), ?_, hmerge.trans hsame⟩
    rw [loadSettings_eq (tokens_mono (Nat.le_max_left k m) hk), hm _ (Nat.le_max_right k m),
      if_pos hfits, Option.map_some]

/-- `{["a"] = {true, -5}, ["b\\\n"] = "c\r"}`. -/
def plainSettings : Fields :=
  .cons (.string [97])
      (.table (.cons (.number 1) (.boolean true)
        (.cons (.number 2) (.number ⟨-5, by decide⟩) .nil)))
    (.cons (.string [98, 92, 10]) (.string [99, 13]) .nil)

theorem plainSettings_clean : plainSettings.All Clean := by
  simp [plainSettings, Fields.All, Value.All, Key.All, Clean]

theorem plainSettings_survive : plainSettings.Survives 1 :=
  (settings_survive_iff 1 plainSettings_clean).mpr ⟨fun _ => rfl, by decide⟩

/-! ## A double quote -/

/-- `{["a"] = "\""}`. -/
def quoted : Fields := .cons (.string [97]) (.string [34]) .nil

theorem not_reads_of_llex {text : List UInt8} (h : llex (text.length + 1) text = none)
    (ts : List Token) : ¬Reads text ts := by
  rintro ⟨n, hn⟩
  cases n with
  | zero => exact absurd hn (Option.some_ne_none ts ∘ Eq.symm)
  | succ n =>
    rw [tokens, h] at hn
    exact absurd hn (Option.some_ne_none ts ∘ Eq.symm)

theorem not_reads_of_token {text rest : List UInt8} {t : Token}
    (h : llex (text.length + 1) text = some (some (t, rest))) (hrest : ∀ ts, ¬Reads rest ts)
    (ts : List Token) : ¬Reads text ts := by
  rintro ⟨n, hn⟩
  cases n with
  | zero => exact absurd hn (Option.some_ne_none ts ∘ Eq.symm)
  | succ n =>
    rw [tokens, h, Option.bind_some] at hn
    obtain ⟨us, hus, -⟩ := Option.map_eq_some_iff.mp hn
    exact hrest us ⟨n, hus⟩

/-- The quote in the string ends it, and the one behind it begins another one. -/
theorem quoted_lost : ¬quoted.Survives 1 := by
  rintro ⟨n, t', hload, -⟩
  obtain ⟨ts, hts, -⟩ := Option.bind_eq_some_iff.mp hload
  have htext : textMode (writeConfigFile (saveSettings quoted)) = CString.ascii
      "tmpsetting = \n\x7b\n\t[\"a\"] = \"\"\",\n\x7d\nmerge_table(setting, tmpsetting)\n".toList := by
    decide
  rw [htext] at hts
  refine not_reads_of_token rfl (not_reads_of_token rfl (not_reads_of_token rfl
    (not_reads_of_token rfl (not_reads_of_token rfl (not_reads_of_token rfl (not_reads_of_token rfl
    (not_reads_of_token rfl (not_reads_of_llex ?_)))))))) ts ⟨n, hts⟩
  rfl

end DWindow.Lua
