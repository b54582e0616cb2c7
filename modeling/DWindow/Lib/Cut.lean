import Mathlib.Data.List.Infix

/-!
# Cutting a list at a separator

`cut sep l` is what stands in front of the first occurrence of `sep` in `l` and what
stands behind it.  The separator is found where it was put, `cut_append`, when no suffix of
the text in front of it, together with what follows, begins with it; two ways to know that
are a separator whose first element does not come again in it (`cut_append_of_head`) and a
text whose last element is foreign to it (`cut_append_of_last`).  `cut_of_infix` is what
happens when the text in front contains the separator.
-/

namespace Cut

variable {α : Type*}

/-! ## Separators and infixes -/

/-- A separator that begins inside a text and is not all inside it reaches over its end. -/
theorem eq_append_of_prefix {sep v rest : List α} (h : sep <+: v ++ rest) (hin : ¬sep <+: v) :
    ∃ t, t ≠ [] ∧ sep = v ++ t ∧ t <+: rest := by
  rcases List.prefix_or_prefix_of_prefix h (List.prefix_append v rest) with hsv | hvs
  · exact absurd hsv hin
  · obtain ⟨t, rfl⟩ := hvs
    refine ⟨t, ?_, rfl, (List.prefix_append_right_inj v).mp h⟩
    rintro rfl
    rw [List.append_nil] at hin
    exact hin (List.prefix_refl v)

/-- What does not contain an element is in front of it or behind it. -/
theorem infix_append_cons_iff {b X Y : List α} {c : α} (hc : c ∉ b) :
    b <:+: X ++ c :: Y ↔ b <:+: X ∨ b <:+: Y := by
  constructor
  · intro h
    rcases List.infix_append_iff_ne_nil.mp h with h | h | ⟨l₁, l₂, -, hl₂, rfl, -, hprefix⟩
    · exact .inl h
    · rcases List.infix_cons_iff.mp h with h | h
      · cases b with
        | nil => exact .inl List.nil_infix
        | cons d b =>
          obtain ⟨rfl, _⟩ := List.cons_prefix_cons.mp h
          exact absurd (List.mem_cons_self ..) hc
      · exact .inr h
    · cases l₂ with
      | nil => exact absurd rfl hl₂
      | cons d l₂ =>
        obtain ⟨rfl, _⟩ := List.cons_prefix_cons.mp hprefix
        exact absurd (List.mem_append_right _ (List.mem_cons_self ..)) hc
  · rintro (h | h)
    · exact h.trans (List.prefix_append _ _).isInfix
    · exact h.trans ((List.suffix_cons c Y).trans (List.suffix_append _ _)).isInfix

/-- The parts in front of an empty last one, joined and followed by the separator. -/
theorem intercalate_dropLast {sep : List α} {parts : List (List α)} (h : parts.getLast? = some [])
    (hne : parts.dropLast ≠ []) :
    sep.intercalate parts.dropLast ++ sep = sep.intercalate parts := by
  induction parts with
  | nil => exact absurd rfl hne
  | cons part parts ih =>
    cases parts with
    | nil => exact absurd rfl hne
    | cons next more =>
      rw [List.getLast?_cons_cons] at h
      rw [List.dropLast_cons_of_ne_nil (List.cons_ne_nil _ _), List.intercalate_cons_cons]
      cases more with
      | nil =>
        obtain rfl : next = [] := by simpa using h
        simp
      | cons third more =>
        have hrest := ih h (by simp)
        rw [List.intercalate_cons_of_ne_nil (by simp), List.append_assoc, hrest]

section cut

variable [DecidableEq α]

/-- The list in front of the first occurrence of `sep`, and behind it. -/
def cut (sep : List α) : List α → Option (List α × List α)
  | [] => if sep = [] then some ([], []) else none
  | x :: l =>
    if sep <+: x :: l then some ([], (x :: l).drop sep.length)
    else (cut sep l).map fun r => (x :: r.1, r.2)

theorem cut_of_prefix {sep l : List α} (h : sep <+: l) :
    cut sep l = some ([], l.drop sep.length) := by
  cases l with
  | nil =>
    obtain rfl : sep = [] := List.prefix_nil.mp h
    rfl
  | cons x l => rw [cut, if_pos h]

/-- **The separator is found where it stands.** -/
theorem cut_append {sep : List α} (rest : List α) : ∀ {text : List α},
    (∀ v, v ≠ [] → v <:+ text → ¬sep <+: v ++ (sep ++ rest)) →
    cut sep (text ++ (sep ++ rest)) = some (text, rest) := by
  intro text
  induction text with
  | nil =>
    intro _
    rw [List.nil_append, cut_of_prefix (List.prefix_append _ _), List.drop_left]
  | cons x text ih =>
    intro h
    have hx : ¬sep <+: x :: (text ++ (sep ++ rest)) :=
      h (x :: text) (List.cons_ne_nil _ _) (List.suffix_refl _)
    rw [List.cons_append, cut, if_neg hx,
      ih fun v hv hsuffix => h v hv (hsuffix.trans (List.suffix_cons x text))]
    rfl

theorem cut_append_of_head {c : α} {tail text : List α} (rest : List α) (hc : c ∉ tail)
    (h : ¬c :: tail <:+: text) :
    cut (c :: tail) (text ++ (c :: tail ++ rest)) = some (text, rest) := by
  refine cut_append rest fun v hv hsuffix hprefix => ?_
  have hin : ¬c :: tail <+: v := fun hp => h (hp.isInfix.trans hsuffix.isInfix)
  obtain ⟨t, ht, hsep, htrest⟩ := eq_append_of_prefix hprefix hin
  cases v with
  | nil => exact hv rfl
  | cons y v =>
    cases t with
    | nil => exact ht rfl
    | cons z t =>
      obtain ⟨_, htail⟩ := List.cons_eq_cons.mp hsep
      obtain ⟨u, hu⟩ := htrest
      obtain ⟨rfl, _⟩ := List.cons_eq_cons.mp hu
      rw [htail] at hc
      exact hc (List.mem_append_right _ (List.mem_cons_self ..))

theorem cut_singleton_eq_none {d : α} : ∀ {l : List α}, cut [d] l = none ↔ d ∉ l := by
  intro l
  induction l with
  | nil => exact iff_of_true rfl List.not_mem_nil
  | cons x l ih =>
    rw [cut, List.mem_cons, not_or, ← ih]
    by_cases hx : d = x
    · rw [if_pos (hx ▸ List.prefix_append [d] l)]
      exact iff_of_false nofun fun h => h.1 hx
    · have hnot : ¬[d] <+: x :: l := fun h => hx (List.cons_prefix_cons.mp h).1
      rw [if_neg hnot, Option.map_eq_none_iff, and_iff_right hx]

theorem cut_singleton_eq_some {d : α} {front back : List α} : ∀ {l : List α},
    cut [d] l = some (front, back) ↔ d ∉ front ∧ l = front ++ d :: back := by
  intro l
  constructor
  · induction l generalizing front with
    | nil => intro h; cases h
    | cons x l ih =>
      intro h
      rw [cut] at h
      split at h
      · next hprefix =>
        obtain ⟨rfl, -⟩ := List.cons_prefix_cons.mp hprefix
        cases h
        exact ⟨List.not_mem_nil, rfl⟩
      · next hprefix =>
        obtain ⟨r, hr, heq⟩ := Option.map_eq_some_iff.mp h
        cases heq
        obtain ⟨hfront, rfl⟩ := ih hr
        refine ⟨fun hd => ?_, rfl⟩
        rcases List.mem_cons.mp hd with rfl | hd
        · exact hprefix (List.prefix_append [d] _)
        · exact hfront hd
  · rintro ⟨hfront, rfl⟩
    refine cut_append_of_head back List.not_mem_nil fun hin => hfront ?_
    exact hin.subset (List.mem_singleton_self d)

/-- A text that ends in an element the separator does not have. -/
theorem cut_append_of_last {sep text : List α} {c : α} (rest : List α) (hc : c ∉ sep)
    (h : ¬sep <:+: text) : cut sep (text ++ [c] ++ (sep ++ rest)) = some (text ++ [c], rest) := by
  refine cut_append rest fun v hv hsuffix hprefix => ?_
  rcases List.suffix_concat_iff.mp hsuffix with rfl | ⟨v, rfl, hsuf⟩
  · exact hv rfl
  · have hin : ¬sep <+: v ++ [c] := by
      intro hp
      rcases List.prefix_concat_iff.mp hp with rfl | hp
      · exact hc (List.mem_append_right _ (List.mem_singleton_self c))
      · exact h (hp.isInfix.trans hsuf.isInfix)
    obtain ⟨t, -, rfl, -⟩ := eq_append_of_prefix hprefix hin
    exact hc (List.mem_append_left _ (List.mem_append_right _ (List.mem_singleton_self c)))

/-- **A text that contains the separator** is cut inside, and more is left behind it. -/
theorem cut_of_infix {sep : List α} (more : List α) : ∀ {text : List α}, sep <:+: text →
    ∃ front back, cut sep (text ++ more) = some (front, back) ∧ more.length ≤ back.length := by
  intro text
  induction text with
  | nil =>
    intro h
    obtain rfl : sep = [] := List.infix_nil.mp h
    exact ⟨[], more, cut_of_prefix List.nil_prefix, Nat.le_refl _⟩
  | cons x text ih =>
    intro h
    rw [List.cons_append, cut]
    by_cases hprefix : sep <+: x :: (text ++ more)
    · refine ⟨[], _, if_pos hprefix, ?_⟩
      have hlen := h.length_le
      rw [List.length_cons] at hlen
      rw [List.length_drop, List.length_cons, List.length_append]
      omega
    · rw [if_neg hprefix]
      rcases List.infix_cons_iff.mp h with hp | hi
      · exact absurd (hp.trans (List.prefix_append (x :: text) more)) hprefix
      · obtain ⟨front, back, hcut, hlen⟩ := ih hi
        exact ⟨x :: front, back, by rw [hcut]; rfl, hlen⟩

theorem eq_of_cut {sep front back : List α} : ∀ {l : List α}, cut sep l = some (front, back) →
    l = front ++ (sep ++ back) := by
  intro l
  induction l generalizing front with
  | nil =>
    intro h
    rw [cut] at h
    split at h
    · next hsep =>
      cases h
      simp [hsep]
    · cases h
  | cons x l ih =>
    intro h
    rw [cut] at h
    split at h
    · next hprefix =>
      cases h
      obtain ⟨rest, hrest⟩ := hprefix
      rw [← hrest, List.drop_left, List.nil_append]
    · obtain ⟨⟨f, b⟩, hcut, he⟩ := Option.map_eq_some_iff.mp h
      cases he
      rw [ih hcut, List.cons_append]

/-- The separator is not in front of where it is found first. -/
theorem not_infix_of_cut {sep front back l : List α} (hsep : sep ≠ [])
    (h : cut sep l = some (front, back)) : ¬sep <:+: front := by
  intro hin
  obtain ⟨f, b, hcut, hlen⟩ := cut_of_infix (sep ++ back) hin
  rw [← eq_of_cut h, h] at hcut
  cases hcut
  rw [List.length_append] at hlen
  have := List.length_pos_iff.mpr hsep
  omega

/-! ## Splitting -/

/-- The parts of a list that is cut at most `n` times. -/
def split (sep : List α) : Nat → List α → List (List α)
  | 0, l => [l]
  | n + 1, l =>
    match cut sep l with
    | none => [l]
    | some (front, back) => front :: split sep n back

variable (sep : List α)

theorem split_ne_nil (n : Nat) (l : List α) : split sep n l ≠ [] := by
  cases n with
  | zero => exact List.cons_ne_nil _ _
  | succ n =>
    rw [split]
    split
    · exact List.cons_ne_nil _ _
    · exact List.cons_ne_nil _ _

theorem length_split_le : ∀ (n : Nat) (l : List α), (split sep n l).length ≤ n + 1 := by
  intro n
  induction n with
  | zero => intro l; exact Nat.le_refl _
  | succ n ih =>
    intro l
    rw [split]
    split
    · simp
    · simpa using ih _

/-- **The parts joined** give back the list. -/
theorem intercalate_split : ∀ (n : Nat) (l : List α), sep.intercalate (split sep n l) = l := by
  intro n
  induction n with
  | zero => intro l; exact List.intercalate_singleton
  | succ n ih =>
    intro l
    rw [split]
    cases hcut : cut sep l with
    | none => exact List.intercalate_singleton
    | some r =>
      obtain ⟨front, back⟩ := r
      dsimp only
      rw [List.intercalate_cons_of_ne_nil (split_ne_nil sep n back), ih back, eq_of_cut hcut,
        List.append_assoc]

theorem not_infix_of_mem_split {sep : List α} (hsep : sep ≠ []) : ∀ (n : Nat) (l : List α),
    ∀ part ∈ (split sep n l).dropLast, ¬sep <:+: part := by
  intro n
  induction n with
  | zero => intro l part hpart; exact absurd hpart List.not_mem_nil
  | succ n ih =>
    intro l part hpart
    rw [split] at hpart
    cases hcut : cut sep l with
    | none =>
      rw [hcut] at hpart
      exact absurd hpart List.not_mem_nil
    | some r =>
      obtain ⟨front, back⟩ := r
      rw [hcut] at hpart
      dsimp only at hpart
      rw [List.dropLast_cons_of_ne_nil (split_ne_nil sep n back)] at hpart
      rcases List.mem_cons.mp hpart with rfl | hpart
      · exact not_infix_of_cut hsep hcut
      · exact ih back part hpart

end cut

end Cut
