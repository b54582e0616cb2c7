import DWindow.Http.Post

/-!
# The announced length

`calculate_item_size` adds up the length that `send_request` announces from the lengths of
strings and files, `send_item` produces the bytes.  The two agree for every list of items
whose files can be read (`requestContentSize_eq`, `bytesOf_sendItems`), and the progress
counter of a fresh `httppost` counts the bytes (`sentAfter_take`).
-/

namespace DWindow.Http

open CInt CString

def FormItem.header (w : World) : FormItem → List UInt8
  | .data name _ => textHeader (w.w2utf8 name)
  | .fileData name _ => fileHeader (w.w2utf8 name) rawData
  | .fileName name file => fileHeader (w.w2utf8 name) (w.w2utf8 file)

def FormItem.content (w : World) : FormItem → List UInt8
  | .data _ value => w.w2utf8 value
  | .fileData _ bytes => bytes
  | .fileName _ file => (w.file file).getD []

def FormItem.Readable (w : World) : FormItem → Prop
  | .fileName _ file => w.file file ≠ none
  | _ => True

/-- `fread` delivers a file in blocks of some sizes. -/
def World.Delivers (w : World) : Prop := ∀ i content, (w.fread i content).flatten = content

/-- What an item puts on the socket, with the lines around it. -/
def FormItem.bytes (w : World) (item : FormItem) : List UInt8 :=
  openLine ++ (item.header w ++ item.content w) ++ crlf ++ closeLine

variable {w : World}

/-! ## The bytes of an item -/

theorem bytesOf_sendMemory : ∀ (bytes : List UInt8), bytesOf (sendMemory bytes) = bytes := by
  intro bytes
  induction bytes using sendMemory.induct with
  | case1 => rw [sendMemory, if_pos rfl, bytesOf_nil]
  | case2 bytes hne ih =>
    rw [sendMemory, if_neg hne, bytesOf_send, bytesOf_callback, ih, List.take_append_drop]

theorem bytesOf_blocks : ∀ (blocks : List (List UInt8)),
    bytesOf (blocks.flatMap fun block => [.send block, .callback]) = blocks.flatten := by
  intro blocks
  induction blocks with
  | nil => rfl
  | cons block blocks ih =>
    rw [List.flatMap_cons, bytesOf_append, ih, List.flatten_cons, bytesOf_send, bytesOf_callback,
      bytesOf_nil, List.append_nil]

theorem bytesOf_sendItem (hw : w.Delivers) (i : Nat) {item : FormItem} (hitem : item.Readable w) :
    bytesOf (sendItem w i item) = item.header w ++ item.content w := by
  cases item with
  | data name value =>
    rw [sendItem, bytesOf_send, bytesOf_send, bytesOf_callback, bytesOf_nil, List.append_nil]
    rfl
  | fileData name bytes =>
    rw [sendItem, bytesOf_send, bytesOf_sendMemory]
    rfl
  | fileName name file =>
    obtain ⟨content, hcontent⟩ := Option.ne_none_iff_exists'.mp hitem
    rw [sendItem, hcontent]
    show bytesOf (_ :: _) = _
    rw [bytesOf_send, bytesOf_blocks, hw i content]
    show _ = fileHeader _ _ ++ (w.file file).getD []
    rw [hcontent]
    rfl

theorem bytesOf_sendItems (hw : w.Delivers) : ∀ (items : List FormItem) (i : Nat),
    (∀ item ∈ items, item.Readable w) →
    bytesOf (sendItems w i items) = items.flatMap (FormItem.bytes w) := by
  intro items
  induction items with
  | nil =>
    intro i _
    rfl
  | cons item items ih =>
    intro i hread
    rw [List.forall_mem_cons] at hread
    rw [sendItems, List.flatMap_cons, bytesOf_append, ih (i + 1) hread.2, List.cons_append,
      bytesOf_send, bytesOf_append, bytesOf_sendItem hw i hread.1, bytesOf_send, bytesOf_send,
      bytesOf_callback, bytesOf_nil, List.append_nil, FormItem.bytes]
    simp only [List.append_assoc]

/-! ## The announced length -/

theorem length_bytes (w : World) (item : FormItem) : (item.bytes w).length =
    boundary.length + 4 + ((item.header w).length + (item.content w).length) +
      (boundary.length + 8) := by
  have hopen : openLine.length = boundary.length + 4 := by decide
  have hclose : (crlf ++ closeLine).length = boundary.length + 8 := by decide
  rw [FormItem.bytes, List.append_assoc, List.length_append, List.length_append, hopen, hclose,
    List.length_append]

theorem calculateItemSize_eq {item : FormItem} (hitem : item.Readable w)
    (hsize : (item.header w).length + (item.content w).length < 2 ^ 31) :
    calculateItemSize w item = (item.header w).length + (item.content w).length := by
  cases item with
  | data name value =>
    simp only [FormItem.header, FormItem.content] at hsize
    rw [calculateItemSize, toInt32_of_lt (by omega) (by omega), Int.add_comm]
    rfl
  | fileData name bytes =>
    simp only [FormItem.header, FormItem.content] at hsize
    rw [calculateItemSize, toInt32_of_lt (by omega) (by omega), Int.add_comm]
    rfl
  | fileName name file =>
    obtain ⟨content, hcontent⟩ := Option.ne_none_iff_exists'.mp hitem
    simp only [FormItem.header, FormItem.content, hcontent, Option.getD_some] at hsize ⊢
    simp only [calculateItemSize, hcontent]
    rw [toInt32_of_lt (n := (content.length : Int)) (by omega) (by omega),
      toInt32_of_lt (by omega) (by omega), Int.add_comm]

theorem foldl_size : ∀ (items : List FormItem) (n : Nat), (∀ item ∈ items, item.Readable w) →
    n + (items.flatMap (FormItem.bytes w)).length < 2 ^ 31 →
    items.foldl (fun size item =>
      toInt32 (toInt32 (toInt32 (size + (boundary.length + 4)) + calculateItemSize w item) +
        (boundary.length + 8))) (n : Int) =
          (n + (items.flatMap (FormItem.bytes w)).length : Nat) := by
  intro items
  induction items with
  | nil =>
    intro n _ _
    rfl
  | cons item items ih =>
    intro n hread hsize
    rw [List.forall_mem_cons] at hread
    rw [List.flatMap_cons, List.length_append, length_bytes] at hsize ⊢
    rw [List.foldl_cons, calculateItemSize_eq hread.1 (by omega),
      toInt32_of_lt (n := (n : Int) + (boundary.length + 4)) (by omega) (by omega),
      toInt32_of_lt (n := (n : Int) + (boundary.length + 4) + _) (by omega) (by omega),
      toInt32_of_lt (by omega) (by omega)]
    have hnext := ih (n + (boundary.length + 4 +
      ((item.header w).length + (item.content w).length) +
      (boundary.length + 8))) hread.2 (by omega)
    push_cast at hnext ⊢
    rw [show (n : Int) + (boundary.length + 4) +
        ((item.header w).length + (item.content w).length) + (boundary.length + 8) =
      n + (boundary.length + 4 + ((item.header w).length + (item.content w).length) +
        (boundary.length + 8)) by omega, hnext]
    omega

theorem requestContentSize_eq {items : List FormItem} (hread : ∀ item ∈ items, item.Readable w)
    (hsize : (items.flatMap (FormItem.bytes w)).length < 2 ^ 31) :
    requestContentSize w items = (items.flatMap (FormItem.bytes w)).length := by
  have hfold := foldl_size items 0 hread (by omega)
  rw [Nat.zero_add] at hfold
  exact hfold

/-! ## The progress counter -/

theorem length_bytesOf_take (emits : List Emit) {j k : Nat} (h : j ≤ k) :
    (bytesOf (emits.take j)).length ≤ (bytesOf (emits.take k)).length := by
  have hsplit : emits.take k = emits.take j ++ (emits.take k).drop j := by
    rw [← Nat.min_eq_left h, ← List.take_take, Nat.min_eq_left h, List.take_append_drop]
  rw [hsplit, bytesOf_append, List.length_append]
  exact Nat.le_add_right _ _

theorem sentAfter_take {emits : List Emit} (hsize : (bytesOf emits).length < 2 ^ 31) (k : Nat) :
    sentAfter 0 (emits.take k) = (bytesOf (emits.take k)).length := by
  have hle : (bytesOf (emits.take k)).length ≤ (bytesOf emits).length := by
    have hmono := length_bytesOf_take emits (Nat.le_max_left k emits.length)
    rwa [List.take_of_length_le (Nat.le_max_right k emits.length)] at hmono
  rw [sentAfter_eq _ 0 rfl, Int.zero_add, toInt32_of_lt (by omega) (by omega)]

/-- The last thing `send_request` does with the items is to call the callback. -/
theorem sendItems_concat (w : World) : ∀ (items : List FormItem) (i : Nat), items ≠ [] →
    ∃ emits, sendItems w i items = emits ++ [.callback] := by
  intro items
  induction items with
  | nil =>
    intro i h
    exact absurd rfl h
  | cons item items ih =>
    intro i _
    cases items with
    | nil =>
      refine ⟨.send openLine :: sendItem w i item ++ [.send crlf, .send closeLine], ?_⟩
      rw [sendItems, sendItems, List.append_nil, List.append_assoc]
      rfl
    | cons item' items =>
      obtain ⟨emits, hemits⟩ := ih (i + 1) (List.cons_ne_nil _ _)
      rw [sendItems, hemits, ← List.append_assoc]
      exact ⟨_, rfl⟩

/-- **The announced length** is that of the body. -/
theorem requestLines_eq {p : HttpPost}
    (htotal : requestContentSize w p.mFormItems = (bytesOf (p.body w)).length)
    (hbytes : bytesOf (p.body w) = p.mFormItems.flatMap (FormItem.bytes w)) :
    p.requestLines w = p.fixedLines w ++ if p.mFormItems = [] then [] else
      [ascii "Content-Length: ".toList ++ decimal (bytesOf (p.body w)).length] := by
  rw [HttpPost.requestLines, htotal]
  refine congrArg (p.fixedLines w ++ ·) ?_
  cases hitems : p.mFormItems with
  | nil =>
    rw [if_pos rfl, if_neg]
    rw [hbytes, hitems]
    exact Int.lt_irrefl 0
  | cons item items =>
    have hpos : 0 < (bytesOf (p.body w)).length := by
      rw [hbytes, hitems, List.flatMap_cons, List.length_append, length_bytes]
      omega
    rw [if_neg (List.cons_ne_nil _ _), if_pos (by omega), Int.toNat_natCast]

/-- A text, a buffer and a file that `fread` delivers in blocks of two bytes. -/
def sampleWorld : World where
  w2utf8 := fun str => str.map UInt16.toUInt8
  utf82w := fun str => str.map UInt8.toUInt16
  file := fun name => if name = [102] then some [1, 2, 3, 4, 5] else none
  fread := fun _ content => if content = [1, 2, 3, 4, 5] then [[1, 2], [3, 4], [5]] else [content]

def sampleItems : List FormItem := [.data [97] [98, 99], .fileName [100] [102]]

theorem sampleWorld_delivers : sampleWorld.Delivers := by
  intro i content
  rw [sampleWorld]
  dsimp only
  split
  · next h => rw [h]; rfl
  · exact List.append_nil _

theorem sampleItems_readable : ∀ item ∈ sampleItems, item.Readable sampleWorld := by
  intro item hitem
  simp only [sampleItems, List.mem_cons, List.not_mem_nil, or_false] at hitem
  rcases hitem with rfl | rfl
  · exact trivial
  · exact fun h => nomatch h

end DWindow.Http
