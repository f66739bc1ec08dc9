import Mathlib
import Assay.FileName
import Assay.Proofs.Word

/-! Names of directories, resolved part by part from their ends. The parts that are left of a name make
up a stack, and on the stack of a directory they act as the parts of the name do. So a name that is
resolved in a directory has the clean form of its spelling from the root; only a slash at its end makes
its last part count twice. -/

namespace Assay

namespace FileName

def spell (rooted : Bool) (parts : List Text) : Text :=
  if rooted then slash :: Text.join [slash] parts.reverse
  else if parts = [] then "."
  else Text.join [slash] parts.reverse

/-- The parts that are left when those of a name are added to others. -/
def addName (rooted : Bool) (parts : List Text) (p : Text) : List Text :=
  (Text.splitOn slash p).foldl (addPart rooted) parts

/-- Parts, the last one first, of which each has stayed when it was added. -/
inductive Reduced (rooted : Bool) : List Text → Prop where
  | nil : Reduced rooted []
  | cons {part : Text} {parts : List Text} (hSlash : slash ∉ part)
    (hStays : addPart rooted parts part = part :: parts) (h : Reduced rooted parts) :
    Reduced rooted (part :: parts)

variable {rooted : Bool} {parts dirs : List Text} {part last p : Text}

theorem clean_eq (p : Text) : clean p = spell (isAbsolute p) (addName (isAbsolute p) [] p) := by
  simp only [clean, spell, addName, List.isEmpty_iff, List.reverse_eq_nil_iff]
  rfl

theorem addName_append (rooted : Bool) (parts : List Text) (p q : Text) :
    addName rooted parts (p ++ slash :: q) = addName rooted (addName rooted parts p) q := by
  rw [addName, Text.splitOn_append, List.foldl_append]
  rfl

theorem addName_of_not_mem (h : slash ∉ part) :
    addName rooted parts part = addPart rooted parts part := by
  rw [addName, Text.splitOn_of_not_mem h]
  rfl

theorem addPart_of_blank (h : part = [] ∨ part = ".") : addPart rooted parts part = parts := by
  obtain rfl | rfl := h <;> rfl

theorem addPart_of_plain (hBlank : ¬(part = [] ∨ part = ".")) (hUp : part ≠ "..") :
    addPart rooted parts part = part :: parts := by
  unfold addPart
  rw [if_neg (by simpa using hBlank), if_neg hUp]

theorem addPart_up (hUp : last ≠ "..") : addPart rooted (last :: parts) ".." = parts := if_neg hUp

theorem not_blank_of_stays (h : addPart rooted parts part = part :: parts) :
    ¬(part = [] ∨ part = ".") := fun hBlank =>
  absurd (h.symm.trans (addPart_of_blank hBlank)) (List.cons_ne_self _ _)

namespace Reduced

theorem addPart (h : Reduced rooted parts) (hSlash : slash ∉ part) :
    Reduced rooted (addPart rooted parts part) := by
  by_cases hBlank : part = [] ∨ part = "."
  · rwa [addPart_of_blank hBlank]
  by_cases hUp : part = ".."
  · subst hUp
    cases h with
    | nil =>
      cases rooted with
      | true => exact .nil
      | false => exact .cons hSlash rfl .nil
    | @cons last parts hLast hStays h =>
      by_cases hAgain : last = ".."
      · subst hAgain
        exact .cons hSlash rfl (.cons hLast hStays h)
      · rwa [addPart_up hAgain]
  · rw [addPart_of_plain hBlank hUp]
    exact .cons hSlash (addPart_of_plain hBlank hUp) h

theorem shape (h : Reduced rooted parts) : ∀ part ∈ parts, part ≠ [] ∧ slash ∉ part := by
  induction h with
  | nil => simp
  | cons hSlash hStays _ ih =>
    exact List.forall_mem_cons.2 ⟨⟨fun hNil => not_blank_of_stays hStays (.inl hNil), hSlash⟩, ih⟩

theorem up_not_mem (h : Reduced true parts) : (".." : Text) ∉ parts := by
  induction h with
  | nil => simp
  | @cons part parts _ hStays _ ih =>
    refine fun hMem => (List.mem_cons.1 hMem).elim (fun hUp => ?_) ih
    subst hUp
    cases parts with
    | nil => cases hStays
    | cons last parts =>
      rw [addPart_up fun hEq => ih (hEq ▸ List.mem_cons_self)] at hStays
      have := congrArg List.length hStays
      simp only [List.length_cons] at this
      omega

end Reduced

theorem spell_cons (hSome : parts ≠ []) :
    spell rooted (part :: parts) = spell rooted parts ++ slash :: part := by
  have hJoin := Text.join_concat [slash] (List.reverse_ne_nil_iff.2 hSome) part
  rw [List.append_assoc, List.singleton_append] at hJoin
  simp only [spell, List.reverse_cons, hJoin, hSome, List.cons_ne_nil, if_false]
  split <;> simp

theorem addName_spell_cons (hSlash : slash ∉ part) (top : Bool) :
    addName top dirs (spell rooted (part :: parts)) =
      addPart top (addName top dirs (spell rooted parts)) part := by
  by_cases hNil : parts = []
  · subst hNil
    cases rooted with
    | true => exact (addName_append top dirs [] part).trans (addName_of_not_mem hSlash)
    | false => exact addName_of_not_mem hSlash
  · rw [spell_cons hNil, addName_append, addName_of_not_mem hSlash]

theorem addName_spell_self (h : Reduced rooted parts) :
    addName rooted [] (spell rooted parts) = parts := by
  induction h with
  | nil => cases rooted <;> rfl
  | cons hSlash hStays _ ih => rw [addName_spell_cons hSlash, ih, hStays]

/-- To the parts of a directory with those of a name added, a further part does what it does to the
name. From the root on there is no directory. -/
theorem addName_spell_addPart (hDirs : rooted = true → dirs = []) (h : Reduced rooted parts)
    (hSlash : slash ∉ part) : addName true dirs (spell rooted (addPart rooted parts part)) =
      addPart true (addName true dirs (spell rooted parts)) part := by
  by_cases hBlank : part = [] ∨ part = "."
  · rw [addPart_of_blank hBlank, addPart_of_blank hBlank]
  by_cases hUp : part = ".."
  · subst hUp
    cases h with
    | nil =>
      cases rooted with
      | true =>
        rw [hDirs rfl]
        rfl
      | false => rfl
    | @cons last parts hLast hStays _ =>
      by_cases hAgain : last = ".."
      · subst hAgain
        exact addName_spell_cons hSlash true
      · rw [addPart_up hAgain, addName_spell_cons hLast,
          addPart_of_plain (not_blank_of_stays hStays) hAgain, addPart_up hAgain]
  · rw [addPart_of_plain hBlank hUp, addName_spell_cons hSlash]

theorem Reduced.foldl (h : Reduced rooted parts) {more : List Text} (hMore : ∀ part ∈ more, slash ∉ part) :
    Reduced rooted (more.foldl (FileName.addPart rooted) parts) ∧
      ∀ dirs, (rooted = true → dirs = []) →
        addName true dirs (spell rooted (more.foldl (FileName.addPart rooted) parts)) =
          more.foldl (FileName.addPart true) (addName true dirs (spell rooted parts)) := by
  induction more generalizing parts with
  | nil => exact ⟨h, fun _ _ => rfl⟩
  | cons part more ih =>
    obtain ⟨hFirst, hMore⟩ := List.forall_mem_cons.1 hMore
    obtain ⟨hReduced, hAll⟩ := ih (h.addPart hFirst) hMore
    refine ⟨hReduced, fun dirs hDirs => ?_⟩
    rw [List.foldl_cons, hAll dirs hDirs, addName_spell_addPart hDirs h hFirst, List.foldl_cons]

theorem Reduced.addName (h : Reduced rooted parts) (p : Text) :
    Reduced rooted (addName rooted parts p) :=
  (h.foldl fun _ => Text.not_mem_of_mem_splitOn).1

theorem addName_spell_addName (hDirs : rooted = true → dirs = []) (p : Text) :
    addName true dirs (spell rooted (addName rooted [] p)) = addName true dirs p := by
  have hAll := (Reduced.nil.foldl fun _ => Text.not_mem_of_mem_splitOn (t := p)).2 dirs hDirs
  cases rooted <;> exact hAll

theorem cutLast?_eq (h : slash ∉ last) : Text.cutLast? slash last = none ∧
    ∀ before, Text.cutLast? slash (before ++ slash :: last) = some (before, last) := by
  have hAll : ∀ b ∈ last.reverse, (b != slash) = true := by
    intro b hb
    rw [bne_iff_ne]
    rintro rfl
    exact h (List.mem_reverse.1 hb)
  refine ⟨?_, fun before => ?_⟩
  · rw [Text.cutLast?, Text.cut?, List.dropWhile_eq_nil_iff.2 hAll]
    rfl
  · rw [Text.cutLast?, Text.cut?]
    simp [List.dropWhile_append_of_pos hAll, List.takeWhile_append_of_pos hAll]

theorem base_eq (hSome : last ≠ []) (h : slash ∉ last) :
    base last = last ∧ ∀ before, base (before ++ slash :: last) = last := by
  obtain ⟨hNone, hCut⟩ := cutLast?_eq h
  obtain rfl | ⟨front, b, rfl⟩ := List.eq_nil_or_concat last
  · exact absurd rfl hSome
  rw [List.concat_eq_append] at *
  have hb : b ≠ slash := fun hEq => h (by simp [hEq])
  refine ⟨by simp [base, hb, hNone], fun before => ?_⟩
  have := hCut before
  simp [base, hb, this]

theorem base_ne_nil (p : Text) : base p ≠ [] := by
  unfold base
  split_ifs
  · decide
  simp only
  split_ifs with hNil
  · decide
  have hLast := List.head?_dropWhile_not (fun b => decide (b = slash)) p.reverse
  generalize p.reverse.dropWhile _ = trimmed at hNil hLast
  obtain hNot | ⟨before, last, hCut, hNot⟩ := Text.exists_cut slash trimmed.reverse
  · rw [(cutLast?_eq hNot).1]
    simpa using hNil
  · rw [hCut, (cutLast?_eq hNot).2]
    rintro rfl
    rw [← List.reverse_reverse trimmed, hCut] at hLast
    simp at hLast

/-- What a name stands for, given what stands for all of it but its last part. -/
def climb (above last : Text) : Text :=
  if last = "." then above else if last = ".." then dir above else join above last

theorem resolveIn_step {workingDir : Text} (hRoot : p ≠ "/") (hHere : p ≠ ".") (steps : Nat) :
    resolveIn workingDir (steps + 1) p = climb (resolveIn workingDir steps (dir p)) (base p) := by
  rw [resolveIn, if_neg hRoot, if_neg hHere]
  rfl

theorem head?_spell (h : Reduced rooted parts) :
    ∃ b rest, spell rooted parts = b :: rest ∧ decide (b = slash) = rooted := by
  cases rooted with
  | true => exact ⟨slash, _, rfl, rfl⟩
  | false =>
    by_cases hNil : parts = []
    · exact ⟨46, [], by rw [hNil]; rfl, rfl⟩
    obtain ⟨first, more, hFirst⟩ := List.exists_cons_of_ne_nil (List.reverse_ne_nil_iff.2 hNil)
    obtain ⟨hSome, hSlash⟩ := h.shape first (List.mem_reverse.1 (hFirst ▸ List.mem_cons_self))
    obtain ⟨b, rest, rfl⟩ := List.exists_cons_of_ne_nil hSome
    have hb : b ≠ slash := fun hEq => hSlash (hEq ▸ List.mem_cons_self)
    rw [spell, if_neg Bool.false_ne_true, if_neg hNil, hFirst]
    cases more <;> exact ⟨b, _, rfl, decide_eq_false hb⟩

theorem clean_spell (h : Reduced rooted parts) (last : Text) :
    clean (spell rooted parts ++ slash :: last) = spell rooted (addName rooted parts last) := by
  have hAbsolute : isAbsolute (spell rooted parts ++ slash :: last) = rooted := by
    obtain ⟨b, rest, hSpell, hb⟩ := head?_spell h
    simpa [isAbsolute, hSpell] using hb
  rw [clean_eq, hAbsolute, addName_append, addName_spell_self h]

theorem dir_spell (h : Reduced rooted (part :: parts)) :
    dir (spell rooted (part :: parts)) = spell rooted parts ∧
      base (spell rooted (part :: parts)) = part := by
  cases h with
  | cons hSlash hStays h =>
    obtain ⟨hNone, hCut⟩ := cutLast?_eq hSlash
    obtain ⟨hBase, hBaseAfter⟩ :=
      base_eq (fun hNil => not_blank_of_stays hStays (.inl hNil)) hSlash
    by_cases hNil : parts = []
    · subst hNil
      cases rooted with
      | true =>
        refine ⟨?_, hBaseAfter []⟩
        rw [dir, show spell true [part] = [] ++ slash :: part from rfl, hCut]
        rfl
      | false =>
        refine ⟨?_, hBase⟩
        rw [dir, show spell false [part] = part from rfl, hNone]
        rfl
    · rw [spell_cons hNil, dir, hCut]
      exact ⟨clean_spell h [], hBaseAfter _⟩

theorem climb_spell (h : Reduced true parts) (hSome : last ≠ []) :
    climb (spell true parts) last = spell true (addName true parts last) := by
  unfold climb
  split_ifs with hDot hUp
  · rw [hDot]
    rfl
  · rw [hUp]
    cases parts with
    | nil => rfl
    | cons part parts =>
      rw [(dir_spell h).1]
      change _ = spell true (addPart true (part :: parts) "..")
      rw [addPart_up fun hEq => h.up_not_mem (hEq ▸ List.mem_cons_self)]
  · obtain ⟨b, rest, hSpell, -⟩ := head?_spell h
    rw [join, if_neg (by rw [hSpell]; exact Bool.false_ne_true), if_neg (by simpa using hSome),
      List.append_assoc]
    exact clean_spell h last

def start (dirs : List Text) (rooted : Bool) : List Text := if rooted then [] else dirs

theorem Reduced.start (h : Reduced true dirs) (rooted : Bool) : Reduced true (start dirs rooted) := by
  cases rooted
  · exact h
  · exact .nil

theorem resolveIn_spell (hDirs : Reduced true dirs) (h : Reduced rooted parts) {steps : Nat}
    (hSteps : parts.length ≤ steps) :
    resolveIn (spell true dirs) (steps + 1) (spell rooted parts) =
      spell true (addName true (start dirs rooted) (spell rooted parts)) := by
  induction h generalizing steps with
  | nil => cases rooted <;> rfl
  | @cons part parts hSlash hStays h ih =>
    obtain ⟨hDir, hBase⟩ := dir_spell (.cons hSlash hStays h)
    have hBlank := not_blank_of_stays hStays
    have hRoot : spell rooted (part :: parts) ≠ "/" := fun hEq => by
      rw [hEq] at hBase
      exact hSlash (hBase ▸ List.mem_singleton.2 rfl)
    have hHere : spell rooted (part :: parts) ≠ "." := fun hEq => by
      rw [hEq] at hBase
      exact hBlank (.inr hBase.symm)
    obtain ⟨fewer, rfl⟩ := Nat.exists_eq_add_of_le' (Nat.le_of_add_left_le hSteps)
    rw [resolveIn_step hRoot hHere, hDir, hBase, ih (Nat.le_of_succ_le_succ hSteps),
      climb_spell ((hDirs.start rooted).addName _) fun hNil => hBlank (.inl hNil),
      addName_of_not_mem hSlash, addName_spell_cons hSlash]

/-- A name as it is spelled from the root, if it counts from a directory. -/
def fromRoot (workingDir p : Text) : Text := if isAbsolute p then p else workingDir ++ slash :: p

theorem clean_fromRoot (h : Reduced true dirs) (p : Text) :
    clean (fromRoot (spell true dirs) p) = spell true (addName true (start dirs (isAbsolute p)) p) := by
  unfold fromRoot
  split_ifs with hAbsolute
  · rw [clean_eq, hAbsolute]
    rfl
  · rw [clean_spell h, Bool.eq_false_of_not_eq_true hAbsolute]
    rfl

theorem length_addName_le (rooted : Bool) (p : Text) : (addName rooted [] p).length ≤ p.length + 1 := by
  have hAll (more parts : List Text) :
      (more.foldl (addPart rooted) parts).length ≤ parts.length + more.length := by
    induction more generalizing parts with
    | nil => simp
    | cons part more ih =>
      have hStep : (addPart rooted parts part).length ≤ parts.length + 1 := by
        unfold addPart
        grind
      have := ih (addPart rooted parts part)
      simp only [List.foldl_cons, List.length_cons]
      omega
  have hSplit := hAll (Text.splitOn slash p) []
  rw [Text.length_splitOn, List.length_nil] at hSplit
  have := List.count_le_length (a := slash) (l := p)
  exact hSplit.trans (by omega)

theorem resolveIn_eq_clean {workingDir : Text} (hAbsolute : isAbsolute workingDir)
    (hClean : clean workingDir = workingDir) (p : Text) {steps : Nat} (hSteps : p.length + 2 ≤ steps) :
    resolveIn workingDir steps p =
      clean (fromRoot workingDir p ++ if p.getLast? = some slash then base p else []) := by
  obtain ⟨dirs, hDirs, rfl⟩ : ∃ dirs, Reduced true dirs ∧ workingDir = spell true dirs := by
    refine ⟨_, Reduced.nil.addName workingDir, ?_⟩
    rw [← hAbsolute, ← clean_eq, hClean]
  obtain ⟨steps, rfl⟩ := Nat.exists_eq_add_of_le' (Nat.le_of_add_left_le hSteps)
  obtain hNot | ⟨before, last, rfl, hNot⟩ := Text.exists_cut slash p
  · have hRelative : isAbsolute p = false := decide_eq_false fun h => hNot (List.mem_of_head? h)
    rw [if_neg fun h => hNot (List.mem_of_getLast? h), List.append_nil, clean_fromRoot hDirs, hRelative]
    by_cases hHere : p = "."
    · rw [hHere]
      rfl
    have hRoot : p ≠ "/" := fun hEq => hNot (hEq ▸ List.mem_singleton.2 rfl)
    rw [resolveIn_step hRoot hHere, dir, (cutLast?_eq hNot).1]
    change climb (spell true dirs) (base p) = _
    rw [climb_spell hDirs (base_ne_nil p)]
    by_cases hNil : p = []
    · rw [hNil]
      rfl
    · rw [(base_eq hNil hNot).1]
      rfl
  · by_cases hRoot : before ++ slash :: last = "/"
    · rw [hRoot]
      rfl
    have hHere : before ++ slash :: last ≠ "." := fun hEq => by
      have hMem : slash ∈ before ++ slash :: last := by simp
      rw [hEq] at hMem
      exact absurd hMem (by decide)
    -- The directory is clean, and what it resolves to has the parts of the name up to the last slash.
    obtain ⟨rooted, hRooted⟩ : ∃ rooted, ∀ last, isAbsolute (before ++ slash :: last) = rooted :=
      ⟨isAbsolute (before ++ slash :: []), fun _ => by cases before <;> rfl⟩
    have hReduced : Reduced rooted (addName rooted [] before) := Reduced.nil.addName before
    have hDir : dir (before ++ slash :: last) = spell rooted (addName rooted [] before) := by
      rw [dir, (cutLast?_eq hNot).2]
      change clean (before ++ slash :: []) = _
      rw [clean_eq, hRooted, addName_append]
      rfl
    have hFew : (addName rooted [] before).length ≤ steps := by
      have := length_addName_le rooted before
      simp only [List.length_append, List.length_cons] at hSteps
      omega
    have hStart : rooted = true → start dirs rooted = [] := fun hTrue => by rw [hTrue]; rfl
    rw [resolveIn_step hRoot hHere, hDir, resolveIn_spell hDirs hReduced hFew,
      climb_spell ((hDirs.start _).addName _) (base_ne_nil _), addName_spell_addName hStart]
    have hFrom (last : Text) : clean (fromRoot (spell true dirs) (before ++ slash :: last)) =
        spell true (addName true (addName true (start dirs rooted) before) last) := by
      rw [clean_fromRoot hDirs, hRooted, addName_append]
    by_cases hNil : last = []
    · have hAdd (more : Text) : fromRoot (spell true dirs) (before ++ slash :: last) ++ more =
          fromRoot (spell true dirs) (before ++ slash :: more) := by
        rw [fromRoot, fromRoot, hRooted, hRooted, hNil]
        split_ifs <;> simp
      rw [if_pos (by simp [hNil]), hAdd, hFrom]
    · have hLast : (before ++ slash :: last).getLast? ≠ some slash := fun h => by
        rw [List.getLast?_append, List.getLast?_cons_of_ne_nil hNil, List.getLast?_eq_some_getLast hNil] at h
        exact hNot (Option.some.inj h ▸ List.getLast_mem hNil)
      rw [if_neg hLast, List.append_nil, hFrom, (base_eq hNil hNot).2]

/-- A name that is resolved in a working directory has the clean form of its spelling from the root, if
no slash ends it; if one does, its last part is added once more. More steps change nothing. -/
theorem resolve_exact {workingDir : Text} (hAbsolute : isAbsolute workingDir)
    (hClean : clean workingDir = workingDir) (p : Text) :
    (∀ steps, p.length + 2 ≤ steps → resolveIn workingDir steps p = resolve workingDir p) ∧
    (p.getLast? ≠ some slash → resolve workingDir p = clean (fromRoot workingDir p)) ∧
    (p.getLast? = some slash → resolve workingDir p = clean (fromRoot workingDir p ++ base p)) := by
  have hSteps := @resolveIn_eq_clean _ hAbsolute hClean p
  have hResolve := hSteps (Nat.le_refl _)
  refine ⟨fun steps h => (hSteps h).trans hResolve.symm, fun hLast => ?_, fun hLast => ?_⟩
  · rw [if_neg hLast, List.append_nil] at hResolve
    exact hResolve
  · rw [if_pos hLast] at hResolve
    exact hResolve

theorem resolve_exact_upwards : isAbsolute "/w/v" ∧ clean "/w/v" = "/w/v" ∧
    resolve "/w/v" ".././/a/b/..//c" = "/w/a/c" := by
  have hAbsolute : isAbsolute "/w/v" := rfl
  have hClean : clean "/w/v" = "/w/v" := rfl
  exact ⟨hAbsolute, hClean, (resolve_exact hAbsolute hClean ".././/a/b/..//c").2.1 (by decide)⟩

/-- A slash at the end of a name leads into a directory of the same name inside it. -/
theorem slash_doubles_last_part : resolve "/w" "a/" = "/w/a/a" ∧ clean (fromRoot "/w" "a/") = "/w/a" :=
  ⟨rfl, rfl⟩

end FileName

end Assay
