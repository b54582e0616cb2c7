import DWindow.Http.Framing
import DWindow.Lib.Cut

/-!
# Reading a request body back

`decode` reads a `multipart/form-data` body: an opening delimiter line, parts separated by
delimiter lines, a closing delimiter, and anything behind it.  A part is its header block,
whose first field gives the name in quotes, a blank line and the content.

`send_request` closes the body behind every item, so a reader finds the first item only:
`decodes_iff` says that a body is read back as its items exactly when there is one item and
its names do not break out of the header block.
-/

namespace DWindow.Http

open CString Cut

def delimiter : List UInt8 := crlf ++ ascii "--".toList ++ boundary

/-- The parts of a body behind its opening line, at most `n`. -/
def splitParts : Nat → List UInt8 → Option (List (List UInt8))
  | 0, _ => none
  | n + 1, text =>
    (cut delimiter text).bind fun r =>
      if ascii "--".toList <+: r.2 then some [r.1]
      else if crlf <+: r.2 then (splitParts n (r.2.drop crlf.length)).map (r.1 :: ·)
      else none

/-- A quoted string, which ends at its quote and does not go over a line. -/
def quoted : List UInt8 → Option (List UInt8)
  | [] => none
  | c :: text =>
    if c = 34 then some []
    else if crlf <+: c :: text then none
    else (quoted text).map (c :: ·)

def decodePart (part : List UInt8) : Option (List UInt8 × List UInt8) :=
  (cut (crlf ++ crlf) part).bind fun r =>
    if disposition <+: r.1 then (quoted (r.1.drop disposition.length)).map fun name => (name, r.2)
    else none

def decode (body : List UInt8) : Option (List (List UInt8 × List UInt8)) :=
  if openLine <+: body then
    (splitParts body.length (body.drop openLine.length)).bind fun parts => parts.mapM decodePart
  else none

def FormItem.name (w : World) : FormItem → List UInt8
  | .data name _ => w.w2utf8 name
  | .fileData name _ => w.w2utf8 name
  | .fileName name _ => w.w2utf8 name

def FormItem.file (w : World) : FormItem → List UInt8
  | .data _ _ => []
  | .fileData _ _ => rawData
  | .fileName _ file => w.w2utf8 file

/-- Names and content do not contain the boundary. -/
def FormItem.Free (w : World) (item : FormItem) : Prop :=
  ¬boundary <:+: item.name w ∧ ¬boundary <:+: item.file w ∧ ¬boundary <:+: item.content w

/-- The name has no quote and no line end, the file name no blank line. -/
def FormItem.Plain (w : World) (item : FormItem) : Prop :=
  34 ∉ item.name w ∧ ¬crlf <:+: item.name w ∧ ¬crlf ++ crlf <:+: item.file w

/-! ## The header block -/

def FormItem.fields (w : World) : FormItem → List UInt8
  | .data name _ => disposition ++ w.w2utf8 name ++ ascii "\"".toList
  | .fileData name _ => disposition ++ w.w2utf8 name ++ ascii "\"; filename=\"".toList ++ rawData ++
      ascii "\"".toList ++ crlf ++ ascii "Content-Type: application/octet-stream".toList
  | .fileName name file => disposition ++ w.w2utf8 name ++ ascii "\"; filename=\"".toList ++
      w.w2utf8 file ++ ascii "\"".toList ++ crlf ++
      ascii "Content-Type: application/octet-stream".toList

variable {w : World}

theorem header_eq (w : World) (item : FormItem) :
    item.header w = item.fields w ++ (crlf ++ crlf) := by
  cases item with
  | data name value => exact List.append_assoc _ _ _
  | fileData name bytes => exact List.append_assoc _ _ _
  | fileName name file => exact List.append_assoc _ _ _

theorem disposition_eq : disposition =
    ascii "Content-Disposition: form-data; name=".toList ++ [34] := by decide

theorem textFields_eq (name : List UInt8) : disposition ++ name ++ ascii "\"".toList =
    ascii "Content-Disposition: form-data; name=".toList ++ 34 :: (name ++ 34 :: []) := by
  rw [disposition_eq, List.append_assoc, List.append_assoc]
  rfl

theorem fileFields_eq (name file : List UInt8) :
    disposition ++ name ++ ascii "\"; filename=\"".toList ++ file ++ ascii "\"".toList ++ crlf ++
        ascii "Content-Type: application/octet-stream".toList =
      ascii "Content-Disposition: form-data; name=".toList ++ 34 :: (name ++ 34 ::
        (ascii "; filename=".toList ++ 34 :: (file ++ 34 ::
          (crlf ++ ascii "Content-Type: application/octet-stream".toList)))) := by
  have hfilename : ascii "\"; filename=\"".toList =
      34 :: (ascii "; filename=".toList ++ [34]) := by decide
  rw [disposition_eq, hfilename]
  simp only [List.append_assoc, List.cons_append, List.nil_append]
  rfl

/-- **What can be in the fields of an item**: a text without quotes that is not in their fixed
parts is there if it is in a name. -/
theorem infix_fields_iff {b : List UInt8} (w : World) (item : FormItem) (hquote : 34 ∉ b)
    (hnil : b ≠ []) (hdisposition : ¬b <:+: ascii "Content-Disposition: form-data; name=".toList)
    (hfilename : ¬b <:+: ascii "; filename=".toList)
    (htype : ¬b <:+: crlf ++ ascii "Content-Type: application/octet-stream".toList) :
    b <:+: item.fields w ↔ b <:+: item.name w ∨ b <:+: item.file w := by
  have hempty : ¬b <:+: [] := fun h => hnil (List.infix_nil.mp h)
  have hfile : ∀ name file : List UInt8,
      b <:+: disposition ++ name ++ ascii "\"; filename=\"".toList ++ file ++ ascii "\"".toList ++
        crlf ++ ascii "Content-Type: application/octet-stream".toList ↔
      b <:+: name ∨ b <:+: file := by
    intro name file
    rw [fileFields_eq, infix_append_cons_iff hquote, infix_append_cons_iff hquote,
      infix_append_cons_iff hquote, infix_append_cons_iff hquote]
    tauto
  cases item with
  | data name value =>
    rw [FormItem.fields, textFields_eq, infix_append_cons_iff hquote, infix_append_cons_iff hquote]
    show _ ↔ b <:+: w.w2utf8 name ∨ b <:+: []
    tauto
  | fileData name bytes => exact hfile _ _
  | fileName name file => exact hfile _ _

theorem blank_infix_fields (w : World) (item : FormItem) :
    crlf ++ crlf <:+: item.fields w ↔
      crlf ++ crlf <:+: item.name w ∨ crlf ++ crlf <:+: item.file w :=
  infix_fields_iff w item (by decide) (by decide) (by decide) (by decide)
    (by decide)

theorem boundary_not_infix {item : FormItem} (hfree : item.Free w) :
    ¬boundary <:+: item.header w ++ item.content w := by
  have hfields : ¬boundary <:+: item.fields w := by
    rw [infix_fields_iff w item (by decide) (by decide) (by decide) (by decide)
      (by decide)]
    exact not_or.mpr ⟨hfree.1, hfree.2.1⟩
  have hten : (10 : UInt8) ∉ boundary := by decide
  have hsplit : item.header w ++ item.content w =
      (item.fields w ++ [13]) ++ 10 :: ([13] ++ 10 :: item.content w) := by
    rw [header_eq]
    simp only [List.append_assoc]
    rfl
  rw [hsplit, infix_append_cons_iff hten, infix_append_cons_iff hten]
  rintro (h | h | h)
  · have hthirteen : (13 : UInt8) ∉ boundary := by decide
    rcases (infix_append_cons_iff hthirteen).mp h with h | h
    · exact hfields h
    · exact absurd h (by decide)
  · exact absurd h (by decide)
  · exact hfree.2.2 h

/-! ## Reading a part -/

/-- **A quoted name** is read back if it has no quote and no line end. -/
theorem quoted_eq_iff : ∀ {name : List UInt8} (rest : List UInt8),
    quoted (name ++ 34 :: rest) = some name ↔ 34 ∉ name ∧ ¬crlf <:+: name := by
  intro name
  induction name with
  | nil =>
    intro rest
    rw [List.nil_append, quoted, if_pos rfl]
    exact iff_of_true rfl ⟨List.not_mem_nil, by decide⟩
  | cons c name ih =>
    intro rest
    have hopen : crlf <+: c :: (name ++ 34 :: rest) ↔ crlf <+: c :: name := by
      constructor
      · intro h
        by_contra hin
        obtain ⟨t, ht, hcrlf, htrest⟩ := eq_append_of_prefix (v := c :: name) h hin
        cases t with
        | nil => exact ht rfl
        | cons d t =>
          obtain ⟨rfl, -⟩ := List.cons_prefix_cons.mp htrest
          have hquote : (34 : UInt8) ∈ crlf := by
            rw [hcrlf]
            exact List.mem_append_right _ (List.mem_cons_self ..)
          exact absurd hquote (by decide)
      · exact fun h => h.trans (List.prefix_append (c :: name) _)
    rw [List.cons_append, quoted, List.mem_cons, not_or, List.infix_cons_iff, not_or]
    by_cases hc : c = 34
    · rw [if_pos hc]
      exact iff_of_false (fun h => nomatch h) fun h => h.1.1 hc.symm
    · rw [if_neg hc]
      by_cases hline : crlf <+: c :: name
      · rw [if_pos (hopen.mpr hline)]
        exact iff_of_false (fun h => nomatch h) fun h => h.2.1 hline
      · rw [if_neg fun h => hline (hopen.mp h), Option.map_eq_some_iff]
        constructor
        · rintro ⟨n, hn, he⟩
          obtain rfl : n = name := List.tail_eq_of_cons_eq he
          obtain ⟨hquote, hin⟩ := (ih rest).mp hn
          exact ⟨⟨Ne.symm hc, hquote⟩, hline, hin⟩
        · rintro ⟨⟨-, hquote⟩, -, hin⟩
          exact ⟨name, (ih rest).mpr ⟨hquote, hin⟩, rfl⟩

theorem fields_eq_name (w : World) (item : FormItem) :
    ∃ rest, item.fields w = disposition ++ (item.name w ++ 34 :: rest) := by
  have hdisposition : ∀ l : List UInt8,
      ascii "Content-Disposition: form-data; name=".toList ++ 34 :: l = disposition ++ l := by
    intro l
    rw [disposition_eq, List.append_assoc]
    rfl
  cases item with
  | data name value =>
    rw [FormItem.fields, textFields_eq, hdisposition]
    exact ⟨_, rfl⟩
  | fileData name bytes =>
    rw [FormItem.fields, fileFields_eq, hdisposition]
    exact ⟨_, rfl⟩
  | fileName name file =>
    rw [FormItem.fields, fileFields_eq, hdisposition]
    exact ⟨_, rfl⟩

theorem fields_eq_concat (w : World) (item : FormItem) :
    ∃ front c, item.fields w = front ++ [c] ∧ c ∉ crlf ++ crlf := by
  have htype : ascii "Content-Type: application/octet-stream".toList =
      ascii "Content-Type: application/octet-strea".toList ++ [109] := by decide
  cases item with
  | data name value => exact ⟨_, 34, rfl, by decide⟩
  | fileData name bytes =>
    rw [FormItem.fields, htype, ← List.append_assoc]
    exact ⟨_, 109, rfl, by decide⟩
  | fileName name file =>
    rw [FormItem.fields, htype, ← List.append_assoc]
    exact ⟨_, 109, rfl, by decide⟩

/-- **A part is read back** if its names stay inside their places. -/
theorem decodePart_iff (w : World) (item : FormItem) :
    decodePart (item.header w ++ item.content w) = some (item.name w, item.content w) ↔
      item.Plain w := by
  rw [header_eq, List.append_assoc, decodePart]
  have hsub : crlf <:+: crlf ++ crlf := (List.prefix_append _ _).isInfix
  by_cases hblank : crlf ++ crlf <:+: item.fields w
  · obtain ⟨front, back, hcut, hlen⟩ :=
      cut_of_infix (crlf ++ crlf ++ item.content w) hblank
    rw [hcut, Option.bind_some]
    refine iff_of_false (fun h => ?_) fun h => ?_
    · have hback : back = item.content w := by
        dsimp only at h
        split at h
        · obtain ⟨name, -, he⟩ := Option.map_eq_some_iff.mp h
          exact congrArg Prod.snd he
        · cases h
      rw [hback, List.length_append] at hlen
      exact absurd hlen (by rw [show (crlf ++ crlf).length = 4 by decide]; omega)
    · rcases (blank_infix_fields w item).mp hblank with hname | hfile
      · exact h.2.1 (hsub.trans hname)
      · exact h.2.2 hfile
  · obtain ⟨front, c, hfront, hc⟩ := fields_eq_concat w item
    obtain ⟨rest, hrest⟩ := fields_eq_name w item
    have hcut : cut (crlf ++ crlf) (item.fields w ++ (crlf ++ crlf ++ item.content w)) =
        some (item.fields w, item.content w) := by
      rw [hfront]
      refine cut_append_of_last _ hc fun h => hblank ?_
      rw [hfront]
      exact h.trans (List.prefix_append _ _).isInfix
    have hnames := not_or.mp (mt (blank_infix_fields w item).mpr hblank)
    rw [hcut, Option.bind_some]
    dsimp only
    rw [hrest, if_pos (List.prefix_append _ _), List.drop_left, Option.map_eq_some_iff]
    constructor
    · rintro ⟨name, hname, he⟩
      obtain rfl : name = item.name w := congrArg Prod.fst he
      obtain ⟨hquote, hline⟩ := (quoted_eq_iff rest).mp hname
      exact ⟨hquote, hline, hnames.2⟩
    · rintro ⟨hquote, hline, -⟩
      exact ⟨_, (quoted_eq_iff rest).mpr ⟨hquote, hline⟩, rfl⟩

/-! ## Reading a body -/

/-- The first delimiter behind a part is the one that was put there. -/
theorem cut_delimiter {item : FormItem} (hfree : item.Free w) (rest : List UInt8) :
    cut delimiter ((item.header w ++ item.content w) ++ (delimiter ++ rest)) =
      some (item.header w ++ item.content w, rest) := by
  have hinfix : ¬delimiter <:+: item.header w ++ item.content w := by
    intro h
    exact boundary_not_infix hfree ((List.suffix_append _ _).isInfix.trans h)
  have hhead : (13 : UInt8) ∉ 10 :: (ascii "--".toList ++ boundary) := by decide
  exact cut_append_of_head rest hhead hinfix

/-- Parts with delimiter lines between them and a closing delimiter behind the last. -/
def joined (w : World) : List FormItem → List UInt8
  | [] => []
  | item :: items =>
    (item.header w ++ item.content w) ++ (delimiter ++
      if items = [] then ascii "--".toList else crlf ++ joined w items)

theorem splitParts_joined (w : World) (epilogue : List UInt8) : ∀ (items : List FormItem) (n : Nat),
    items ≠ [] → items.length ≤ n → (∀ item ∈ items, item.Free w) →
    splitParts n (joined w items ++ epilogue) =
      some (items.map fun item => item.header w ++ item.content w) := by
  intro items
  induction items with
  | nil =>
    intro n hne
    exact absurd rfl hne
  | cons item items ih =>
    intro n _ hn hfree
    rw [List.forall_mem_cons] at hfree
    cases n with
    | zero => exact absurd hn (Nat.not_succ_le_zero _)
    | succ n =>
      rw [splitParts, joined, List.append_assoc, List.append_assoc delimiter,
        cut_delimiter hfree.1, Option.bind_some]
      dsimp only
      by_cases hitems : items = []
      · subst hitems
        rw [if_pos rfl, if_pos (List.prefix_append _ _)]
        rfl
      · have hdash : ¬ascii "--".toList <+: crlf ++ joined w items ++ epilogue := by
          intro h
          obtain ⟨heq, -⟩ := List.cons_prefix_cons.mp h
          exact absurd heq (by decide)
        rw [if_neg hitems, if_neg hdash, List.append_assoc, if_pos (List.prefix_append _ _),
          List.drop_left, ih n hitems (Nat.le_of_succ_le_succ hn) hfree.2]
        rfl

/-- **The reader reads** any number of parts that are separated by delimiter lines. -/
theorem decode_joined (w : World) (epilogue : List UInt8) {items : List FormItem} (hne : items ≠ [])
    (hfree : ∀ item ∈ items, item.Free w) (hplain : ∀ item ∈ items, item.Plain w) :
    decode (openLine ++ (joined w items ++ epilogue)) =
      some (items.map fun item => (item.name w, item.content w)) := by
  have hlen : ∀ l : List FormItem, l.length ≤ (joined w l).length := by
    intro l
    induction l with
    | nil => exact Nat.zero_le _
    | cons item l ih =>
      rw [joined, List.length_cons, List.length_append, List.length_append, List.length_append,
        show delimiter.length = 19 by decide]
      split
      · next hl =>
        rw [hl, List.length_nil]
        omega
      · rw [List.length_append]
        omega
  have hfuel : items.length ≤ (openLine ++ (joined w items ++ epilogue)).length := by
    have := hlen items
    rw [List.length_append, List.length_append]
    omega
  rw [decode, if_pos (List.prefix_append _ _), List.drop_left,
    splitParts_joined w epilogue items _ hne hfuel hfree, Option.bind_some]
  clear hfuel hne hfree
  induction items with
  | nil => rfl
  | cons item items ih =>
    rw [List.forall_mem_cons] at hplain
    rw [List.map_cons, List.mapM_cons, (decodePart_iff w item).mpr hplain.1, ih hplain.2]
    rfl

/-- **A reader stops behind the first item** of a request, whatever follows it. -/
theorem decode_cons (w : World) {item : FormItem} (hfree : item.Free w) (items : List FormItem) :
    decode ((item :: items).flatMap (FormItem.bytes w)) =
      (decodePart (item.header w ++ item.content w)).map fun part => [part] := by
  have hbody : (item :: items).flatMap (FormItem.bytes w) = openLine ++
      (joined w [item] ++ (crlf ++ items.flatMap (FormItem.bytes w))) := by
    have hclose : crlf ++ closeLine = delimiter ++ (ascii "--".toList ++ crlf) := by decide
    rw [List.flatMap_cons, FormItem.bytes, List.append_assoc _ crlf, hclose, joined, if_pos rfl]
    simp only [List.append_assoc]
  have hsplit := splitParts_joined w (crlf ++ items.flatMap (FormItem.bytes w)) [item]
    ((item :: items).flatMap (FormItem.bytes w)).length (List.cons_ne_nil _ _)
    (by rw [hbody, List.length_append, show openLine.length = 19 by decide, List.length_singleton]
        omega)
    (fun i hi => by rw [List.mem_singleton.mp hi]; exact hfree)
  rw [decode, hbody, if_pos (List.prefix_append _ _), List.drop_left, ← hbody, hsplit,
    Option.bind_some, List.map_cons, List.map_nil, List.mapM_cons, List.mapM_nil]
  cases decodePart (item.header w ++ item.content w) with
  | none => rfl
  | some part => rfl

/-- **A body is read back** as its items if and only if there is one item and its names stay
inside their places. -/
theorem decodes_iff (w : World) (items : List FormItem) (hne : items ≠ []) (hw : w.Delivers)
    (hread : ∀ item ∈ items, item.Readable w) (hfree : ∀ item ∈ items, item.Free w) :
    decode (bytesOf (sendItems w 0 items)) =
        some (items.map fun item => (item.name w, item.content w)) ↔
      items.length = 1 ∧ ∀ item ∈ items, item.Plain w := by
  rw [bytesOf_sendItems hw items 0 hread]
  cases items with
  | nil => exact absurd rfl hne
  | cons item items =>
    rw [decode_cons w (hfree item (List.mem_cons_self ..)) items, Option.map_eq_some_iff,
      List.forall_mem_cons, List.map_cons]
    constructor
    · rintro ⟨part, hpart, he⟩
      obtain ⟨rfl, hnil⟩ := List.cons_eq_cons.mp he
      obtain rfl : items = [] := List.map_eq_nil_iff.mp hnil.symm
      exact ⟨rfl, (decodePart_iff w item).mp hpart, fun i hi => absurd hi List.not_mem_nil⟩
    · rintro ⟨hlen, hplain, -⟩
      obtain rfl : items = [] := List.length_eq_zero_iff.mp (Nat.succ.inj hlen)
      exact ⟨_, (decodePart_iff w item).mpr hplain, rfl⟩

theorem decodes_one : decode (bytesOf (sendItems sampleWorld 0 [.data [97] [98, 99]])) =
      some ([FormItem.data [97] [98, 99]].map fun item =>
        (item.name sampleWorld, item.content sampleWorld)) := by
  refine (decodes_iff sampleWorld _ (List.cons_ne_nil _ _) sampleWorld_delivers ?_ ?_).mpr ?_
  · intro item hitem
    rw [List.mem_singleton.mp hitem]
    exact trivial
  · intro item hitem
    rw [List.mem_singleton.mp hitem]
    exact ⟨by decide, by decide, by decide⟩
  · refine ⟨rfl, fun item hitem => ?_⟩
    rw [List.mem_singleton.mp hitem]
    exact ⟨by decide, by decide, by decide⟩

/-- Of two texts the second is behind the end of the body. -/
theorem second_item_lost :
    decode (bytesOf (sendItems sampleWorld 0 [.data [97] [98, 99], .data [100] [101]])) =
      some [([97], [98, 99])] := by
  set_option maxRecDepth 8000 in decide

end DWindow.Http
