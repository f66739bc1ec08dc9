import Mathlib
import Assay.Name
import Assay.Tree.Parser

/-! Words, which are what identifiers are, and names of words between dots. A word has none of the
marks that separate the parts of a name, and a text that starts with one is not blank. -/

namespace Assay

variable {rest t : Text} {b : UInt8} {r : Rune} {size w : Nat} {tokens : List Token}

namespace Rune

theorem encoded?_widths (h : encoded? b rest = some (r, w)) : w = 1 ∨ w = 2 ∨ w = 3 ∨ w = 4 := by
  unfold encoded? at h
  grind

theorem encoded?_append (h : encoded? b rest = some (r, w)) (t : Text) :
    encoded? b (rest.take (w - 1) ++ t) = some (r, w) := by
  have hw := encoded?_widths h
  unfold encoded? at h ⊢
  obtain rfl | rfl | rfl | rfl := hw
  · grind
  · rcases rest with _ | ⟨c, rest⟩ <;>
      simp only [Nat.add_one_sub_one, List.take_nil, List.take_succ_cons, List.take_zero,
        List.nil_append, List.cons_append] <;> grind
  · rcases rest with _ | ⟨c, _ | ⟨d, rest⟩⟩ <;>
      simp only [Nat.add_one_sub_one, List.take_nil, List.take_succ_cons, List.take_zero,
        List.nil_append, List.cons_append] <;> grind
  · rcases rest with _ | ⟨c, _ | ⟨d, _ | ⟨e, rest⟩⟩⟩ <;>
      simp only [Nat.add_one_sub_one, List.take_nil, List.take_succ_cons, List.take_zero,
        List.nil_append, List.cons_append] <;> grind

theorem continuation_of_encoded? (h : encoded? b rest = some (r, w)) :
    ∀ c ∈ rest.take (w - 1), 0x80 ≤ c := by
  have hw := encoded?_widths h
  unfold encoded? isContinuation at h
  obtain rfl | rfl | rfl | rfl := hw
  · simp
  · rcases rest with _ | ⟨c, rest⟩ <;> (simp; try grind)
  · rcases rest with _ | ⟨c, _ | ⟨d, rest⟩⟩ <;> simp <;> grind
  · rcases rest with _ | ⟨c, _ | ⟨d, _ | ⟨e, rest⟩⟩⟩ <;> simp <;> grind

theorem ofText_encoded (h : encoded? b rest = some (r, w)) (t : Text) :
    ofText (b :: (rest.take (w - 1) ++ t)) = r :: ofText t := by
  obtain ⟨hPos, hLe⟩ := encoded?_width h
  have hTake : (rest.take (w - 1)).length = w - 1 := by
    rw [List.length_take]
    omega
  rw [ofText, decode, encoded?_append h, Option.getD_some]
  simp only [List.drop_append, hTake, Nat.sub_self, List.drop_zero]
  rw [List.drop_of_length_le (Nat.le_of_eq hTake), List.nil_append]

theorem mem_ofText_of_byte (hb : b < 0x80) (h : b ∈ t) : b.toNat ∈ ofText t := by
  fun_induction ofText t with
  | case1 => simp at h
  | case2 c rest ih =>
    obtain rfl | h := List.mem_cons.1 h
    · have : encoded? b rest = some (b.toNat, 1) := by
        unfold encoded?
        rw [if_pos hb]
      simp [decode, this]
    · rw [← List.take_append_drop ((decode c rest).2 - 1) rest, List.mem_append] at h
      obtain h | h := h
      · exfalso
        unfold decode at h
        cases he : encoded? c rest with
        | none => simp [he] at h
        | some rw =>
          rw [he, Option.getD_some] at h
          have := continuation_of_encoded? (r := rw.1) (w := rw.2) he b h
          exact absurd hb (UInt8.not_lt.2 this)
      · exact List.mem_cons_of_mem _ (ih h)

theorem isWord_of_apart : ∀ r ∈ [replacement, 10, 32, 34, 47, 61], isWord r = false := by decide +kernel

theorem classes_of_apart (h : r ∈ [replacement, 10, 32, 34, 47, 61]) :
    startsWord r = false ∧ isDigit r = false := by
  have hWord := isWord_of_apart r h
  rw [isWord, Bool.or_eq_false_iff] at hWord
  exact hWord

theorem isWord_replacement : isWord replacement = false := isWord_of_apart _ (by decide)

theorem isDigit_replacement : isDigit replacement = false := (classes_of_apart (by decide)).2

theorem isWord_of_startsWord (h : startsWord r) : isWord r := by
  unfold startsWord isWord at *
  grind

theorem encoded?_of_prop {p : Rune → Bool} (hp : p replacement = false) (h : p (decode b rest).1) :
    encoded? b rest = some (decode b rest) := by
  unfold decode at *
  cases he : encoded? b rest with
  | none =>
    rw [he, Option.getD_none, hp] at h
    cases h
  | some result => rfl

theorem encoded?_of_isWord (h : isWord (decode b rest).1) :
    encoded? b rest = some (decode b rest) := encoded?_of_prop isWord_replacement h

theorem span_prop {p : Rune → Bool} (hp : p replacement = false) (t : Text) :
    ∀ r ∈ ofText (span p t).1, p r := by
  fun_induction span p t with
  | case1 => simp [ofText]
  | case2 b rest r width hdecode hr taken left hspan ih =>
    have he : encoded? b rest = some (r, width) := by
      rw [encoded?_of_prop hp (by rw [hdecode]; exact hr), hdecode]
    simp only [hspan] at ih
    rw [List.cons_append, ofText_encoded he]
    exact List.forall_mem_cons.2 ⟨hr, ih⟩
  | case3 => simp [ofText]

def spaces : List Nat :=
  [0x9, 0xA, 0xB, 0xC, 0xD, 0x20, 0x85, 0xA0, 0x1680, 0x2000, 0x2001, 0x2002, 0x2003, 0x2004, 0x2005,
    0x2006, 0x2007, 0x2008, 0x2009, 0x200A, 0x2028, 0x2029, 0x202F, 0x205F, 0x3000]

theorem mem_range_of_inRanges {r : Nat} {ranges : List (Nat × Nat)} (h : inRanges r ranges = true) :
    ∃ range ∈ ranges, range.1 ≤ r ∧ r ≤ range.2 := by
  induction ranges with
  | nil => simp [inRanges] at h
  | cons range rest ih =>
    obtain ⟨low, high⟩ := range
    simp only [inRanges, Bool.if_false_left, Bool.and_eq_true, Bool.not_eq_true', Bool.or_eq_true,
      decide_eq_true_eq, decide_eq_false_iff_not] at h
    obtain ⟨hLow, hHigh | hRest⟩ := h
    · exact ⟨_, List.mem_cons_self, Nat.not_lt.1 hLow, hHigh⟩
    · obtain ⟨range, hMem, hRange⟩ := ih hRest
      exact ⟨range, List.mem_cons_of_mem _ hMem, hRange⟩

theorem mem_spaces {r : Nat} (h : isSpace r = true) : r ∈ spaces := by
  obtain ⟨range, hMem, hRange⟩ := mem_range_of_inRanges h
  simp only [List.mem_cons, List.not_mem_nil, or_false] at hMem
  simp only [spaces, List.mem_cons, List.not_mem_nil, or_false]
  obtain rfl | rfl | rfl | rfl | rfl | rfl | rfl | rfl | rfl | rfl := hMem <;> simp only at hRange <;>
    omega

theorem isSpace_eq_false_of_startsWord (h : startsWord r) : isSpace r = false := by
  have hSpaces : ∀ r ∈ spaces, startsWord r = false := by decide +kernel
  by_contra hs
  rw [Bool.not_eq_false] at hs
  rw [hSpaces r (mem_spaces hs)] at h
  exact absurd h Bool.false_ne_true

end Rune

namespace Text

/-- Whether a text is a word: a letter or an underscore, and then letters, digits and underscores. -/
def isWord (t : Text) : Bool :=
  match Rune.ofText t with
  | [] => false
  | r :: rest => r.startsWord && rest.all Rune.isWord

def isDotted (t : Text) : Bool := (splitOn 46 t).all isWord

theorem isWord_runes (h : isWord t) :
    ∃ r rest, Rune.ofText t = r :: rest ∧ r.startsWord ∧ ∀ x ∈ rest, Rune.isWord x := by
  unfold isWord at h
  split at h
  · exact absurd h Bool.false_ne_true
  · rename_i r rest hr
    rw [Bool.and_eq_true, List.all_eq_true] at h
    exact ⟨r, rest, hr, h.1, h.2⟩

theorem isWord_of_startsWord (h : (Rune.decode b rest).1.startsWord) :
    isWord (b :: rest.take ((Rune.decode b rest).2 - 1) ++
      (Rune.span Rune.isWord (rest.drop ((Rune.decode b rest).2 - 1))).1) := by
  have he := Rune.encoded?_of_isWord (Rune.isWord_of_startsWord h)
  rw [isWord, List.cons_append, Rune.ofText_encoded (r := (Rune.decode b rest).1)
    (w := (Rune.decode b rest).2) he, Bool.and_eq_true, List.all_eq_true]
  exact ⟨h, Rune.span_prop Rune.isWord_replacement _⟩

theorem not_mem_of_isWord (h : isWord t) {c : UInt8} (hc : c < 0x80)
    (hMark : Rune.isWord c.toNat = false) : c ∉ t := by
  obtain ⟨r, rest, hr, hStart, hRest⟩ := isWord_runes h
  intro hMem
  have hRune := Rune.mem_ofText_of_byte hc hMem
  rw [hr, List.mem_cons] at hRune
  have : Rune.isWord c.toNat = true := by
    obtain he | hm := hRune
    · rw [he]
      exact Rune.isWord_of_startsWord hStart
    · exact hRest _ hm
  rw [hMark] at this
  exact absurd this Bool.false_ne_true

theorem ne_nil_of_isWord (h : isWord t) : t ≠ [] := by
  rintro rfl
  simp [isWord, Rune.ofText] at h

theorem isBlank_append_of_isWord (h : isWord t) (s : Text) : isBlank (t ++ s) = false := by
  obtain ⟨r, rest, hr, hStart, -⟩ := isWord_runes h
  cases t with
  | nil => simp [Rune.ofText] at hr
  | cons b t =>
    rw [Rune.ofText, List.cons.injEq] at hr
    have he : Rune.encoded? b t = some (Rune.decode b t) := by
      apply Rune.encoded?_of_isWord
      rw [hr.1]
      exact Rune.isWord_of_startsWord hStart
    have hText : b :: t ++ s =
        b :: (t.take ((Rune.decode b t).2 - 1) ++ (t.drop ((Rune.decode b t).2 - 1) ++ s)) := by
      rw [← List.append_assoc, List.take_append_drop, List.cons_append]
    rw [isBlank, hText, Rune.ofText_encoded (r := (Rune.decode b t).1)
      (w := (Rune.decode b t).2) he, List.all_cons, hr.1, Rune.isSpace_eq_false_of_startsWord hStart,
      Bool.false_and]

theorem splitOn_append (sep : UInt8) (a b : Text) :
    splitOn sep (a ++ sep :: b) = splitOn sep a ++ splitOn sep b := by
  induction a with
  | nil => simp [splitOn]
  | cons c rest ih =>
    rw [List.cons_append, splitOn, splitOn, ih]
    split
    · rfl
    · cases h : splitOn sep rest with
      | nil => exact absurd h (splitOn_ne_nil _ _)
      | cons part parts => rfl

theorem splitOn_of_not_mem {sep : UInt8} (h : sep ∉ t) : splitOn sep t = [t] := by
  induction t with
  | nil => rfl
  | cons b rest ih =>
    rw [List.mem_cons, not_or] at h
    rw [splitOn, if_neg (Ne.symm h.1), ih h.2]

theorem not_mem_of_mem_splitOn {sep : UInt8} {part : Text} (h : part ∈ splitOn sep t) :
    sep ∉ part := by
  induction t generalizing part with
  | nil =>
    rw [splitOn_nil, List.mem_singleton] at h
    simp [h]
  | cons b rest ih =>
    rw [splitOn] at h
    split at h
    · obtain rfl | h := List.mem_cons.1 h
      · simp
      · exact ih h
    · rename_i hb
      cases hs : splitOn sep rest with
      | nil => exact absurd hs (splitOn_ne_nil _ _)
      | cons first parts =>
        rw [hs] at h ih
        obtain rfl | h := List.mem_cons.1 h
        · rw [List.mem_cons, not_or]
          exact ⟨Ne.symm hb, ih List.mem_cons_self⟩
        · exact ih (List.mem_cons_of_mem _ h)

theorem length_splitOn (sep : UInt8) (t : Text) : (splitOn sep t).length = t.count sep + 1 := by
  induction t with
  | nil => rfl
  | cons b rest ih =>
    rw [splitOn, List.count_cons]
    cases hRest : splitOn sep rest with
    | nil => exact absurd hRest (splitOn_ne_nil _ _)
    | cons part parts =>
      rw [hRest, List.length_cons] at ih
      by_cases hb : b = sep <;> simp [hb] <;> omega

theorem join_cons (sep t : Text) (ts : List Text) :
    join sep (t :: ts) = t ++ ts.flatMap (sep ++ ·) := by
  induction ts generalizing t with
  | nil => simp [join]
  | cons next more ih =>
    rw [join, ih, List.flatMap_cons, List.append_assoc, List.append_assoc]
    exact fun h => List.cons_ne_nil _ _ h

theorem join_concat (sep : Text) {parts : List Text} (h : parts ≠ []) (last : Text) :
    join sep (parts ++ [last]) = join sep parts ++ sep ++ last := by
  obtain ⟨part, rest, rfl⟩ := List.exists_cons_of_ne_nil h
  simp [join_cons]

theorem join_splitOn (sep : UInt8) (t : Text) : join [sep] (splitOn sep t) = t := by
  induction t with
  | nil => rfl
  | cons b rest ih =>
    rw [splitOn]
    cases hs : splitOn sep rest with
    | nil => exact absurd hs (splitOn_ne_nil _ _)
    | cons part parts =>
      rw [hs, join_cons] at ih
      by_cases hb : b = sep <;> simp [hb, join_cons, ← ih]

theorem exists_cut (sep : UInt8) (t : Text) :
    sep ∉ t ∨ ∃ before last, t = before ++ sep :: last ∧ sep ∉ last := by
  by_cases h : sep ∈ t
  · obtain ⟨last, before, hCut, hNot⟩ := List.eq_append_cons_of_mem (List.mem_reverse.2 h)
    refine .inr ⟨before.reverse, last.reverse, ?_, by simpa using hNot⟩
    simpa using congrArg List.reverse hCut
  · exact .inl h

theorem splitOn_injective (sep : UInt8) {s : Text} (h : splitOn sep s = splitOn sep t) : s = t := by
  rw [← join_splitOn sep s, h, join_splitOn]

theorem isDotted_of_isWord (h : isWord t) : isDotted t := by
  rw [isDotted, splitOn_of_not_mem (not_mem_of_isWord h (by decide) (by decide +kernel)),
    List.all_cons, List.all_nil, Bool.and_true]
  exact h

theorem isDotted_append {s : Text} (hs : isDotted s) (ht : isDotted t) :
    isDotted (s ++ "." ++ t) := by
  have hDot : s ++ ("." : Text) ++ t = s ++ 46 :: t := by
    rw [List.append_assoc]
    rfl
  rw [isDotted, hDot, splitOn_append, List.all_append, Bool.and_eq_true]
  exact ⟨hs, ht⟩

theorem not_mem_of_isDotted (h : isDotted t) {c : UInt8} (hc : c < 0x80)
    (hMark : Rune.isWord c.toNat = false) (hDot : c ≠ 46) : c ∉ t := by
  rw [isDotted, List.all_eq_true] at h
  have hJoin (parts : List Text) (hp : ∀ part ∈ parts, c ∉ part) : c ∉ join [46] parts := by
    induction parts with
    | nil => simp [join]
    | cons part rest ih =>
      cases rest with
      | nil => exact hp _ List.mem_cons_self
      | cons next more =>
        rw [join, List.mem_append, List.mem_append, List.mem_singleton]
        · rintro ((h | h) | h)
          · exact hp _ List.mem_cons_self h
          · exact hDot h
          · exact ih (fun p hMem => hp p (List.mem_cons_of_mem _ hMem)) h
        · exact fun h => List.cons_ne_nil _ _ h
  rw [← join_splitOn 46 t]
  exact hJoin _ fun part hPart => not_mem_of_isWord (h part hPart) hc hMark

theorem isBlank_append_of_isDotted (h : isDotted t) (s : Text) : isBlank (t ++ s) = false := by
  rw [isDotted, List.all_eq_true] at h
  have hJoin := join_splitOn 46 t
  cases hs : splitOn 46 t with
  | nil => exact absurd hs (splitOn_ne_nil _ _)
  | cons part parts =>
    have hPart := h part (by rw [hs]; exact List.mem_cons_self)
    rw [hs] at hJoin
    cases parts with
    | nil =>
      rw [join] at hJoin
      rw [← hJoin]
      exact isBlank_append_of_isWord hPart s
    | cons next more =>
      rw [join, List.append_assoc] at hJoin
      · rw [← hJoin, List.append_assoc]
        exact isBlank_append_of_isWord hPart _
      · exact fun h => List.cons_ne_nil _ _ h

end Text

def Token.Worded (tokens : List Token) : Prop :=
  ∀ t ∈ tokens, ∀ name, t.lexeme = .ident name → Text.isWord name

theorem Lexeme.isWord_of_read {left : Text} {name : Text}
    (h : Lexeme.read b rest = .ok (.ident name, left)) : Text.isWord name := by
  unfold Lexeme.read at h
  simp only at h
  split at h
  · rename_i hStart
    simp only [Except.ok.injEq, Prod.mk.injEq, ofWord] at h
    split at h
    · exact absurd h.1 (by simp)
    · rw [← (Lexeme.ident.inj h.1)]
      exact Text.isWord_of_startsWord hStart
  · split at h
    · simp at h
    · split at h
      · split at h <;> simp at h
      · split at h <;> simp at h

theorem Token.worded_of_readAll (h : Token.readAll size t = .ok tokens) : Token.Worded tokens := by
  fun_induction Token.readAll size t generalizing tokens with
  | case1 => simp_all [Token.Worded]
  | case2 => simp at h
  | case3 t b rest _ start lexeme left hr hShorter =>
    rename_i ih
    cases hMore : Token.readAll size left with
    | error e => simp [hMore, Except.map] at h
    | ok more =>
      simp only [hMore, Except.map, Except.ok.injEq] at h
      subst h
      intro t ht name hName
      obtain rfl | ht := List.mem_cons.1 ht
      · subst hName
        exact Lexeme.isWord_of_read hr
      · exact ih hMore t ht name hName

theorem Token.within_of_readAll (h : Token.readAll size t = .ok tokens) :
    ∀ k ∈ tokens, k.start ≤ size ∧ k.stop ≤ size := by
  fun_induction Token.readAll size t generalizing tokens with
  | case1 => simp_all
  | case2 => simp at h
  | case3 t b rest _ start lexeme left hr hShorter =>
    rename_i ih
    cases hMore : Token.readAll size left with
    | error e => simp [hMore, Except.map] at h
    | ok more =>
      simp only [hMore, Except.map, Except.ok.injEq] at h
      subst h
      exact List.forall_mem_cons.2 ⟨⟨Nat.sub_le _ _, Nat.sub_le _ _⟩, ih hMore⟩

theorem Token.laid_of_readAll (hSize : t.length ≤ size) (h : Token.readAll size t = .ok tokens) :
    tokens.Pairwise (·.stop ≤ ·.start) ∧
      ∀ k ∈ tokens, size - t.length ≤ k.start ∧ k.start < k.stop := by
  fun_induction Token.readAll size t generalizing tokens with
  | case1 => simp_all
  | case2 => simp at h
  | case3 t b rest hBlanks start lexeme left hr hShorter =>
    rename_i ih
    have hLeft := Lexeme.read_length hr
    have hRest : rest.length + 1 ≤ t.length := by
      have := Lexeme.skipBlanks_length_le t
      rwa [hBlanks, List.length_cons] at this
    cases hMore : Token.readAll size left with
    | error e => simp [hMore, Except.map] at h
    | ok more =>
      simp only [hMore, Except.map, Except.ok.injEq] at h
      subst h
      obtain ⟨hSorted, hFrom⟩ := ih (by omega) hMore
      have hStart : size - (rest.length + 1) < size - left.length := by omega
      refine ⟨List.pairwise_cons.2 ⟨fun k hk => (hFrom k hk).1, hSorted⟩,
        List.forall_mem_cons.2 ⟨⟨Nat.sub_le_sub_left hRest size, hStart⟩, fun k hk => ?_⟩⟩
      have hBefore := (Nat.sub_le_sub_left hRest size).trans hStart.le
      exact ⟨hBefore.trans (hFrom k hk).1, (hFrom k hk).2⟩

end Assay
