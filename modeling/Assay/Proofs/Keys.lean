import Mathlib
import Assay.Proofs.Derived
import Assay.Proofs.Table

/-! The keys that names are found under. A name of words is its own key. The name that a method is
declared under has the key of the calls with as many arguments as the method has parameters: the
texts of types keep their commas in brackets. -/

namespace Assay

variable {base t : Text} {b : UInt8} {ts : List Text}

def Text.Spaced (t : Text) : Prop := t = [] ∨ isDotted t

theorem Text.join_concat_append (sep : Text) (parts : List Text) (last more : Text) :
    join sep (parts ++ [last ++ more]) = join sep (parts ++ [last]) ++ more := by
  cases parts <;> simp [join_cons]

namespace Name

theorem ofText_of_not_mem (h : 40 ∉ t) :
    ofText t = ⟨(Text.splitOn 46 t).dropLast, (Text.splitOn 46 t).getLastD []⟩ := by
  have hAll : ∀ b ∈ t, (b != 40) = true := fun b hb => by
    rw [bne_iff_ne]
    rintro rfl
    exact h hb
  simp only [ofText, List.takeWhile_eq_self_iff.2 hAll, List.dropWhile_eq_nil_iff.2 hAll,
    List.append_nil]

theorem not_mem_getLastD_splitOn {c : UInt8} (h : c ∉ t) : c ∉ (Text.splitOn 46 t).getLastD [] := by
  intro hMem
  have hLast : (Text.splitOn 46 t).getLastD [] ∈ Text.splitOn 46 t := by
    rw [List.getLastD_eq_getLast?, List.getLast?_eq_some_getLast (Text.splitOn_ne_nil _ _)]
    exact List.getLast_mem _
  have hJoin {parts : List Text} {part : Text} (hp : part ∈ parts) (hc : c ∈ part) :
      c ∈ Text.join [46] parts := by
    induction parts with
    | nil => simp at hp
    | cons first rest ih =>
      cases rest with
      | nil =>
        rw [List.mem_singleton] at hp
        subst hp
        exact hc
      | cons next more =>
        rw [Text.join, List.mem_append, List.mem_append]
        · obtain rfl | hp := List.mem_cons.1 hp
          · exact .inl (.inl hc)
          · exact .inr (ih hp)
        · exact fun h => List.cons_ne_nil _ _ h
  exact h (Text.join_splitOn 46 t ▸ hJoin hLast hMem)

theorem key_ofText (h : 40 ∉ t) : (ofText t).key = .ok (.plain (ofText t).simple) := by
  have hSimple : 40 ∉ (ofText t).simple := by
    rw [ofText_of_not_mem h]
    exact not_mem_getLastD_splitOn h
  rw [key, isMethod, if_neg (by simpa using hSimple)]

theorem not_mem_of_isDotted (h : Text.isDotted t) : 40 ∉ t :=
  Text.not_mem_of_isDotted h (by decide) (by decide +kernel) (by decide)

theorem ofText_of_isWord (h : Text.isWord t) : ofText t = ⟨[], t⟩ := by
  rw [ofText_of_not_mem (not_mem_of_isDotted (Text.isDotted_of_isWord h)),
    Text.splitOn_of_not_mem (Text.not_mem_of_isWord h (by decide) (by decide +kernel))]
  rfl

theorem parts_ofText (h : 40 ∉ t) : (ofText t).parts = Text.splitOn 46 t := by
  rw [ofText_of_not_mem h, parts]
  simp only
  rw [List.getLastD_eq_getLast?, List.getLast?_eq_some_getLast (Text.splitOn_ne_nil _ _),
    Option.getD_some]
  exact List.dropLast_append_getLast (Text.splitOn_ne_nil _ _)

theorem full_ofText (t : Text) : (ofText t).full = t := by
  have hParts (ps : List Text) (h : ps ≠ []) : ps.dropLast ++ [ps.getLastD []] = ps := by
    rw [List.getLastD_eq_getLast?, List.getLast?_eq_some_getLast h, Option.getD_some]
    exact List.dropLast_append_getLast h
  rw [full, parts, ofText]
  simp only
  rw [Text.join_concat_append, hParts _ (Text.splitOn_ne_nil _ _),
    show ("." : Text) = [46] from rfl, Text.join_splitOn, List.takeWhile_append_dropWhile]

def Dotted (name : Name) : Prop := ∃ t, Text.isDotted t ∧ name = ofText t

namespace Dotted

variable {name : Name}

theorem key (h : name.Dotted) : name.key = .ok (.plain name.simple) := by
  obtain ⟨t, ht, rfl⟩ := h
  exact key_ofText (not_mem_of_isDotted ht)

theorem full (h : name.Dotted) : Text.isDotted name.full := by
  obtain ⟨t, ht, rfl⟩ := h
  rwa [full_ofText]

theorem ofText_full (h : name.Dotted) : ofText name.full = name := by
  obtain ⟨t, ht, rfl⟩ := h
  rw [full_ofText]

theorem parts (h : name.Dotted) : ∀ part ∈ name.parts, Text.isWord part := by
  obtain ⟨t, ht, rfl⟩ := h
  rw [parts_ofText (not_mem_of_isDotted ht)]
  exact List.all_eq_true.1 ht

theorem home (h : name.Dotted) {path : Path} (hPath : ∀ part ∈ path, Text.isWord part) :
    ∀ part ∈ Scope.home path name, Text.isWord part := by
  unfold Scope.home
  split
  · exact fun part hPart => h.parts part (List.mem_append_left _ hPart)
  · exact hPath

end Dotted

theorem dotted_ofText (h : Text.isDotted t) : (ofText t).Dotted := ⟨t, h, rfl⟩

theorem isWord_of_isDotted (h : Text.isDotted t) (hOne : ¬(ofText t).isQualified) :
    Text.isWord t := by
  have hNone : (ofText t).qualifier = [] := by simpa [isQualified] using hOne
  have hParts : (ofText t).parts = [(ofText t).simple] := by simp [Name.parts, hNone]
  have hFull : (ofText t).simple = t := calc
    (ofText t).simple = (ofText t).full := by rw [full, hParts]; rfl
    _ = t := full_ofText t
  exact hFull ▸ (dotted_ofText h).parts (ofText t).simple (by simp [hParts])

theorem dotted_ofTextIn {space : Text} (h : Text.isDotted t) (hSpace : Text.Spaced space) :
    (ofTextIn t space).Dotted := by
  rw [ofTextIn]
  obtain rfl | hSpace := hSpace
  · simpa using dotted_ofText h
  · split
    · exact dotted_ofText h
    · exact dotted_ofText (Text.isDotted_append hSpace h)

theorem normalized_fault {name : Name} {f : Fault} (h : name.normalized = .error f) :
    f = .outOfBounds := by
  unfold normalized at h
  split at h
  · split at h
    · simp only at h
      split at h <;> simp at h
    · exact (Except.error.inj h).symm
  · simp at h

theorem key_fault {name : Name} {f : Fault} (h : name.key = .error f) : f = .outOfBounds := by
  unfold key at h
  split at h
  · cases hn : name.normalized with
    | ok t => simp [hn, Except.map] at h
    | error f' =>
      simp only [hn, Except.map, Except.error.injEq] at h
      exact h ▸ normalized_fault hn
  · simp at h

end Name

namespace Text

/-- A text in which no comma counts that is not inside further brackets, and which does not start
with a space: it counts as one parameter. -/
structure Single (t : Text) : Prop where
  skip : ∀ (depth : Int) (rest : Text), 0 ≤ depth →
    Name.arity.go depth (t ++ rest) = Name.arity.go depth rest
  solid : ∀ rest, isBlank (t ++ rest) = false

theorem go_plain (h : ∀ b ∈ t, b ≠ 40 ∧ b ≠ 41 ∧ b ≠ 91 ∧ b ≠ 93 ∧ b ≠ 44) (depth : Int)
    (rest : Text) : Name.arity.go depth (t ++ rest) = Name.arity.go depth rest := by
  induction t with
  | nil => rfl
  | cons b t ih =>
    have hb := h b List.mem_cons_self
    rw [List.cons_append, Name.arity.go]
    simp only [hb, decide_false, Bool.or_self, Bool.false_eq_true, if_false, Bool.false_and]
    exact ih fun b' hb' => h b' (List.mem_cons_of_mem _ hb')

theorem Single.dotted (h : isDotted t) : Single t where
  skip := fun depth rest _ => go_plain (fun b hb => by
    refine ⟨?_, ?_, ?_, ?_, ?_⟩ <;> rintro rfl <;>
      exact not_mem_of_isDotted h (by decide) (by decide +kernel) (by decide) hb) depth rest
  solid := isBlank_append_of_isDotted h

theorem go_join {sep : Text} (hts : ∀ t ∈ ts, Single t) (hSep : ∀ (depth : Int) (rest : Text), 0 <
      depth → Name.arity.go depth (sep ++ rest) = Name.arity.go depth rest) {depth : Int}
    (hDepth : 0 < depth) (rest : Text) :
    Name.arity.go depth (join sep ts ++ rest) = Name.arity.go depth rest := by
  induction ts with
  | nil => rfl
  | cons t more ih =>
    have ht := hts t List.mem_cons_self
    cases more with
    | nil => exact ht.skip depth rest (by omega)
    | cons next more =>
      rw [join, List.append_assoc, List.append_assoc, ht.skip _ _ (by omega), hSep _ _ hDepth]
      · exact ih fun t' ht' => hts t' (List.mem_cons_of_mem _ ht')
      · exact fun h => List.cons_ne_nil _ _ h

theorem go_open (hb : b = 40 ∨ b = 91) (depth : Int) (rest : Text) :
    Name.arity.go depth (b :: rest) = Name.arity.go (depth + 1) rest := by
  rw [Name.arity.go]
  obtain rfl | rfl := hb <;> simp

theorem go_close (hb : b = 41 ∨ b = 93) (depth : Int) (rest : Text) :
    Name.arity.go depth (b :: rest) = Name.arity.go (depth - 1) rest := by
  rw [Name.arity.go]
  obtain rfl | rfl := hb <;> simp

theorem go_brackets {sep : Text} {b' : UInt8} (hts : ∀ t ∈ ts, Single t)
    (hSep : ∀ (depth : Int) (rest : Text), 0 < depth → Name.arity.go depth (sep ++ rest) =
      Name.arity.go depth rest) (hb : b = 40 ∨ b = 91) (hb' : b' = 41 ∨ b' = 93) {depth : Int}
    (hDepth : 0 ≤ depth) (rest : Text) :
    Name.arity.go depth (b :: (join sep ts ++ b' :: rest)) = Name.arity.go depth rest := by
  rw [go_open hb, go_join hts hSep (by omega), go_close hb']
  congr 1
  omega

theorem Single.replicate : Single "_" := .dotted (by decide +kernel)

theorem isBlank_nil : isBlank [] = true := by simp [isBlank, Rune.ofText]

theorem arity_join (h : ∀ x ∈ t :: ts, Single x) :
    Name.arity (join "," (t :: ts)) = ts.length + 1 := by
  unfold Name.arity
  induction ts generalizing t with
  | nil =>
    have := (h t List.mem_cons_self).skip 0 [] (by omega)
    rw [List.append_nil] at this
    rw [join, this]
    rfl
  | cons next more ih =>
    rw [join, List.append_assoc, (h t List.mem_cons_self).skip 0 _ (by omega)]
    · have hNext := ih fun x hx => h x (List.mem_cons_of_mem _ hx)
      change Name.arity.go 0 (44 :: join "," (next :: more)) = _
      rw [Name.arity.go]
      simp [hNext]
    · exact fun h => List.cons_ne_nil _ _ h

theorem join_replicate (n : Nat) :
    join "," (List.replicate (n + 1) "_") = times n "_," ++ "_" := by
  induction n with
  | zero => rfl
  | succ n ih =>
    rw [List.replicate_succ, List.replicate_succ, join, ← List.replicate_succ, ih, times, times,
      List.replicate_succ, List.flatten_cons]
    · rfl
    · exact fun h => List.cons_ne_nil _ _ h

end Text

namespace Name

theorem cut_append (hBase : 40 ∉ base) (rest : Text) :
    (base ++ 40 :: rest).takeWhile (· != 40) = base ∧
      (base ++ 40 :: rest).dropWhile (· != 40) = 40 :: rest := by
  have hAll : ∀ b ∈ base, (b != 40) = true := by
    intro b hb
    rw [bne_iff_ne]
    rintro rfl
    exact hBase hb
  rw [List.takeWhile_append_of_pos hAll, List.dropWhile_append_of_pos hAll]
  simp

theorem ofText_append (hParen : 40 ∉ base) (hDot : 46 ∉ base) (rest : Text) :
    ofText (base ++ 40 :: rest) = ⟨[], base ++ 40 :: rest⟩ := by
  obtain ⟨hTake, hDrop⟩ := cut_append hParen rest
  simp only [ofText, hTake, hDrop, Text.splitOn_of_not_mem hDot]
  rfl

theorem isMethod_append (base rest : Text) : isMethod ⟨[], base ++ 40 :: rest⟩ = true := by
  simp [isMethod]

theorem callName_eq (base : Text) (n : Nat) :
    callName base n = base ++ 40 :: (Text.join "," (List.replicate n "_") ++ [41]) := by
  simp only [callName, List.append_assoc]
  rfl

theorem callName_zero (base : Text) : callName base 0 = base ++ "()" := by
  rw [callName_eq]
  rfl

theorem callName_succ (base : Text) (n : Nat) :
    callName base (n + 1) = base ++ "(" ++ Text.times n "_," ++ "_)" := by
  rw [callName_eq, Text.join_replicate]
  simp only [List.append_assoc]
  rfl

theorem normalized_of_single (hParen : 40 ∉ base) (hDot : 46 ∉ base) (ts : List Text)
    (hts : ∀ t ∈ ts, Text.Single t) :
    ofText (base ++ "(" ++ Text.join "," ts ++ ")") =
        ⟨[], base ++ "(" ++ Text.join "," ts ++ ")"⟩ ∧
      (ofText (base ++ "(" ++ Text.join "," ts ++ ")")).isMethod = true ∧
      (ofText (base ++ "(" ++ Text.join "," ts ++ ")")).normalized =
        .ok (callName base ts.length) := by
  have hText : base ++ ("(" : Text) ++ Text.join "," ts ++ (")" : Text) =
      base ++ 40 :: (Text.join "," ts ++ [41]) := by
    simp only [List.append_assoc]
    rfl
  have hMethod := isMethod_append base (Text.join "," ts ++ [41])
  obtain ⟨hTake, hDrop⟩ := cut_append hParen (Text.join "," ts ++ [41])
  rw [hText, ofText_append hParen hDot]
  refine ⟨rfl, hMethod, ?_⟩
  rw [normalized, if_pos hMethod]
  simp only [hTake, hDrop]
  cases ts with
  | nil => simp [Text.join, Text.isBlank_nil, callName_zero]
  | cons t ts =>
    have hSolid : Text.isBlank (Text.join "," (t :: ts)) = false := by
      cases ts with
      | nil =>
        have := (hts t List.mem_cons_self).solid []
        rwa [List.append_nil] at this
      | cons next more =>
        rw [Text.join, List.append_assoc]
        · exact (hts t List.mem_cons_self).solid _
        · exact fun h => List.cons_ne_nil _ _ h
    have hLast : Text.join "," (t :: ts) ≠ [] := by
      rintro hNil
      rw [hNil, Text.isBlank_nil] at hSolid
      exact absurd hSolid (by decide)
    cases hJoin : Text.join "," (t :: ts) with
    | nil => exact absurd hJoin hLast
    | cons b more =>
      have hParams : (b :: (more ++ [41])).dropLast = Text.join "," (t :: ts) := by
        rw [hJoin, ← List.cons_append, List.dropLast_concat]
      simp only [List.cons_append, hParams, hSolid, Text.arity_join hts]
      rw [List.length_cons, callName_succ]
      rfl

theorem single_of_mem_replicate {n : Nat} : ∀ t ∈ List.replicate n ("_" : Text), Text.Single t := by
  intro t ht
  rw [List.eq_of_mem_replicate ht]
  exact .replicate

theorem normalized_callName (hParen : 40 ∉ base) (hDot : 46 ∉ base) (n : Nat) :
    (ofText (callName base n)).normalized = .ok (callName base n) := by
  have h := (normalized_of_single hParen hDot (List.replicate n "_") single_of_mem_replicate).2.2
  rwa [List.length_replicate] at h

theorem not_mem_of_isWord (h : Text.isWord base) : 40 ∉ base ∧ 46 ∉ base :=
  ⟨Text.not_mem_of_isWord h (by decide) (by decide +kernel),
    Text.not_mem_of_isWord h (by decide) (by decide +kernel)⟩

theorem key_of_single (hBase : Text.isWord base) (ts : List Text) (hts : ∀ t ∈ ts, Text.Single t) :
    ofText (base ++ "(" ++ Text.join "," ts ++ ")") =
        ⟨[], base ++ "(" ++ Text.join "," ts ++ ")"⟩ ∧
      (ofText (base ++ "(" ++ Text.join "," ts ++ ")")).key =
        .ok (.overloads (callName base ts.length)) := by
  obtain ⟨hParen, hDot⟩ := not_mem_of_isWord hBase
  obtain ⟨hOf, hMethod, hNormal⟩ := normalized_of_single hParen hDot ts hts
  refine ⟨hOf, ?_⟩
  rw [key, if_pos hMethod, hNormal]
  rfl

theorem key_callName (hBase : Text.isWord base) (n : Nat) :
    ofText (callName base n) = ⟨[], callName base n⟩ ∧
      (ofText (callName base n)).key = .ok (.overloads (callName base n)) := by
  have h := key_of_single hBase (List.replicate n "_") single_of_mem_replicate
  rwa [List.length_replicate] at h

theorem length_join_replicate (n : Nat) :
    (Text.join "," (List.replicate n "_")).length = 2 * n - 1 := by
  cases n with
  | zero => rfl
  | succ n =>
    have hTimes : (Text.times n "_,").length = 2 * n := by
      simp [Text.times, show ((Text.ofString "_,").length) = 2 from rfl]
      omega
    rw [Text.join_replicate, List.length_append, hTimes]
    rfl

theorem not_mem_join_replicate (n : Nat) :
    (40 : UInt8) ∉ Text.join "," (List.replicate n "_") := by
  cases n with
  | zero => simp [Text.join]
  | succ n =>
    rw [Text.join_replicate, List.mem_append, Text.times, List.mem_flatten]
    rintro (⟨t, ht, hMem⟩ | hMem)
    · rw [List.eq_of_mem_replicate ht] at hMem
      exact absurd hMem (by decide)
    · exact absurd hMem (by decide)

/-- Calls have one name only if they call one name with the same number of arguments. That the name
has no parenthesis need be known on one side only: the other name has then no room for one. -/
theorem callName_inj {name : Text} (hBase : 40 ∉ base) {m n : Nat} :
    callName base m = callName name n ↔ base = name ∧ m = n := by
  constructor
  · intro h
    rw [callName_eq, callName_eq] at h
    have hName : base = name := by
      obtain ⟨more, hMore, hRest⟩ | ⟨more, hMore, hRest⟩ := List.append_eq_append_iff.1 h
      · cases more with
        | nil => simpa using hMore.symm
        | cons b more =>
          have hMem : (40 : UInt8) ∈ Text.join "," (List.replicate m "_") ++ [41] := by
            rw [List.cons_append, List.cons.injEq] at hRest
            rw [hRest.2]
            simp
          rw [List.mem_append, List.mem_singleton] at hMem
          obtain hMem | hMem := hMem
          · exact absurd hMem (not_mem_join_replicate m)
          · exact absurd hMem (by decide)
      · cases more with
        | nil => simpa using hMore
        | cons b more =>
          rw [List.cons_append, List.cons.injEq] at hRest
          exact absurd (by simp [hMore, ← hRest.1]) hBase
    subst hName
    have hLength := congrArg List.length h
    simp only [List.length_append, List.length_cons, length_join_replicate] at hLength
    exact ⟨rfl, by omega⟩
  · rintro ⟨rfl, rfl⟩
    rfl

end Name

def Node.Single {α : Type} : Node α → Prop
  | .spec (.simple _ name _) => Text.Single name
  | _ => True

theorem Node.Worded.single {α : Type} {n : Node α} (h : n.Worded) : n.Single := by
  cases n with
  | spec s =>
    cases s with
    | simple _ name _ => exact .dotted h
    | _ => trivial
  | _ => trivial

namespace TypeSpec

variable {α : Type}

theorem go_comma (depth : Int) (rest : Text) (h : 0 < depth) :
    Name.arity.go depth ((", " : Text) ++ rest) = Name.arity.go depth rest := by
  have hDepth : depth ≠ 0 := by omega
  change Name.arity.go depth (44 :: ([32] ++ rest)) = _
  have hSpace := Text.go_plain (t := [32]) (by simp) depth rest
  rw [Name.arity.go]
  simpa [hDepth] using hSpace

theorem go_bar (depth : Int) (rest : Text) (_ : 0 < depth) :
    Name.arity.go depth ((" | " : Text) ++ rest) = Name.arity.go depth rest := by
  change Name.arity.go depth ([32, 124, 32] ++ rest) = _
  exact Text.go_plain (by simp) depth rest

theorem go_ampersand (depth : Int) (rest : Text) (_ : 0 < depth) :
    Name.arity.go depth ((" & " : Text) ++ rest) = Name.arity.go depth rest := by
  change Name.arity.go depth ([32, 38, 32] ++ rest) = _
  exact Text.go_plain (by simp) depth rest

theorem isBlank_of_byte (hb : b < 0x80) (hSpace : Rune.isSpace b.toNat = false) (h : b ∈ t) :
    Text.isBlank t = false := by
  rw [Text.isBlank, List.all_eq_false]
  exact ⟨b.toNat, Rune.mem_ofText_of_byte hb h, by simp [hSpace]⟩

theorem isBlank_openParen (rest : Text) : Text.isBlank (40 :: rest) = false :=
  isBlank_of_byte (by decide) (by decide +kernel) List.mem_cons_self

mutual

theorem single_toText : (s : TypeSpec α) → (Node.spec s).All Node.Single → Text.Single s.toText
  | .simple a name args, h => by
    have hName : Text.Single name := h.self
    have hArgs := single_texts args fun s hs => h.child (List.mem_map_of_mem hs)
    rw [toText]
    split
    · exact hName
    · have hText (rest : Text) : name ++ ("[" : Text) ++ Text.join ", " (texts args) ++
          ("]" : Text) ++ rest = name ++ 91 :: (Text.join ", " (texts args) ++ 93 :: rest) := by
        simp only [List.append_assoc]
        rfl
      refine ⟨fun depth rest hDepth => ?_, fun rest => ?_⟩
      · rw [hText, hName.skip _ _ hDepth, Text.go_brackets hArgs go_comma (.inr rfl)
          (.inr rfl) hDepth]
      · rw [hText]
        exact hName.solid _
  | .union a types, h => by
    have hTypes := single_texts types fun s hs => h.child (List.mem_map_of_mem hs)
    have hText (rest : Text) : toText (.union a types) ++ rest =
        40 :: (Text.join " | " (texts types) ++ 41 :: rest) := by
      simp only [toText, List.append_assoc]
      rfl
    refine ⟨fun depth rest hDepth => ?_, fun rest => ?_⟩
    · rw [hText, Text.go_brackets hTypes go_bar (.inl rfl) (.inl rfl) hDepth]
    · rw [hText]
      exact isBlank_openParen _
  | .inter a types, h => by
    have hTypes := single_texts types fun s hs => h.child (List.mem_map_of_mem hs)
    have hText (rest : Text) : toText (.inter a types) ++ rest =
        40 :: (Text.join " & " (texts types) ++ 41 :: rest) := by
      simp only [toText, List.append_assoc]
      rfl
    refine ⟨fun depth rest hDepth => ?_, fun rest => ?_⟩
    · rw [hText, Text.go_brackets hTypes go_ampersand (.inl rfl) (.inl rfl) hDepth]
    · rw [hText]
      exact isBlank_openParen _
  | .func a params result, h => by
    have hParams := single_texts params fun s hs =>
      h.child (List.mem_append_left _ (List.mem_map_of_mem hs))
    have hResult := single_toText result (h.child (List.mem_append_right _ List.mem_cons_self))
    have hText (rest : Text) : toText (.func a params result) ++ rest =
        40 :: (Text.join ", " (texts params) ++ 41 :: (58 :: 32 :: (result.toText ++ rest))) := by
      simp only [toText, List.append_assoc]
      rfl
    refine ⟨fun depth rest hDepth => ?_, fun rest => ?_⟩
    · rw [hText, Text.go_brackets hParams go_comma (.inl rfl) (.inl rfl) hDepth]
      change Name.arity.go depth ([58, 32] ++ (result.toText ++ rest)) = _
      rw [Text.go_plain (by simp), hResult.skip _ _ hDepth]
    · rw [hText]
      exact isBlank_openParen _
  | .inferred a, h => by
    have hText (rest : Text) : toText (.inferred a) ++ rest =
        91 :: (Text.join "" ["inferred"] ++ 93 :: rest) := rfl
    have hSingle : ∀ t ∈ [("inferred" : Text)], Text.Single t :=
      List.forall_mem_singleton.2 (.dotted (by decide +kernel))
    refine ⟨fun depth rest hDepth => ?_, fun rest => ?_⟩
    · rw [hText, Text.go_brackets hSingle (fun _ _ _ => rfl) (.inr rfl) (.inr rfl) hDepth]
    · rw [hText]
      exact isBlank_of_byte (by decide) (by decide +kernel) List.mem_cons_self

theorem single_texts : (ss : List (TypeSpec α)) → (∀ s ∈ ss, (Node.spec s).All Node.Single) →
    ∀ t ∈ texts ss, Text.Single t
  | [], _ => by simp [texts]
  | s :: rest, h => by
    rw [texts, List.forall_mem_cons]
    exact ⟨single_toText s (h s List.mem_cons_self),
      single_texts rest fun j hj => h j (List.mem_cons_of_mem _ hj)⟩

end

end TypeSpec

theorem Signature.single_params {α : Type} {s : Signature α}
    (h : ∀ p ∈ s.params, (Node.spec p.spec).All Node.Single) :
    ∀ t ∈ s.params.map (·.spec.toText), Text.Single t :=
  List.forall_mem_map.2 fun p hp => TypeSpec.single_toText p.spec (h p hp)

theorem Signature.key_symbolName {s : Signature Meta} (h : (Node.signature s).All Node.Worded) :
    Name.ofText s.symbolName = ⟨[], s.symbolName⟩ ∧
      (Name.ofText s.symbolName).key = .ok (.overloads (callName s.name s.params.length)) := by
  have hParams : ∀ p ∈ s.params, (Node.spec p.spec).All Node.Single := by
    intro p hp
    have hParam : (Node.param p).All Node.Worded := by
      refine h.child ?_
      simp only [Node.children, List.mem_append]
      exact .inl (.inr (List.mem_map_of_mem hp))
    exact (hParam.child List.mem_cons_self).mono fun _ => Node.Worded.single
  have hKey := Name.key_of_single h.self _ (Signature.single_params hParams)
  rwa [List.length_map] at hKey

def Text.Keyed (t : Text) : Prop := ∃ key, (Name.ofText t).key = .ok key

theorem Text.keyed_iff : t.Keyed ↔ t.dropWhile (· != 40) ≠ [40] := by
  by_cases hMem : 40 ∈ t
  · obtain ⟨base, rest, rfl, hBase⟩ := List.eq_append_cons_of_mem hMem
    obtain ⟨hTake, hDrop⟩ := Name.cut_append hBase rest
    have hLast : 40 ∉ (splitOn 46 base).getLastD [] := Name.not_mem_getLastD_splitOn hBase
    -- The last part of the name keeps all from the first parenthesis on.
    have hSimple : (Name.ofText (base ++ 40 :: rest)).simple =
        (splitOn 46 base).getLastD [] ++ 40 :: rest := by
      simp only [Name.ofText, hTake, hDrop]
    have hMethod : (Name.ofText (base ++ 40 :: rest)).isMethod := by simp [Name.isMethod, hSimple]
    rw [hDrop, Keyed, Name.key, if_pos hMethod, Name.normalized, if_pos hMethod, hSimple,
      (Name.cut_append hLast _).2]
    cases rest with
    | nil => simp [Except.map]
    | cons next rest =>
      simp only [ne_eq, List.cons.injEq, reduceCtorEq, and_false, not_false_eq_true, iff_true]
      split
      · exact ⟨_, rfl⟩
      · exact ⟨_, rfl⟩
  · have hNone : t.dropWhile (· != 40) = [] := by
      rw [List.dropWhile_eq_nil_iff]
      intro b hb
      rw [bne_iff_ne]
      rintro rfl
      exact hMem hb
    exact ⟨fun _ => by simp [hNone], fun _ => ⟨_, Name.key_ofText hMem⟩⟩

namespace Text.Keyed

theorem of_isDotted (h : isDotted t) : t.Keyed :=
  ⟨_, Name.key_ofText (Name.not_mem_of_isDotted h)⟩

theorem qualified (h : t.Keyed) (space : Text) : (space ++ "." ++ t : Text).Keyed := by
  rw [keyed_iff] at h ⊢
  rw [List.append_assoc, List.dropWhile_append]
  split
  · simpa [show ("." : Text) = [46] from rfl] using h
  · rename_i hSome
    intro hEq
    have hPos : 0 < (space.dropWhile (· != 40)).length := by
      rw [List.length_pos_iff]
      simpa using hSome
    have hLength := congrArg List.length hEq
    simp only [show ("." : Text) = [46] from rfl, List.length_append, List.length_singleton] at hLength
    omega

theorem full_ofTextIn (h : t.Keyed) (space : Text) : (Name.ofTextIn t space).full.Keyed := by
  rw [Name.ofTextIn]
  split
  · rwa [Name.full_ofText]
  · rw [Name.full_ofText]
    exact h.qualified space

end Text.Keyed

end Assay
