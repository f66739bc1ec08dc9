import Mathlib
import Assay.Diagnostic

/-! The order of diagnostics. To sort them drops none but those that repeat another one, and what
repeats a problem is a problem of the same kind. What starts at the same point keeps its order, so a
repetition is seen only if nothing else stands between. -/

namespace Assay

variable {ds : List Diagnostic} {e : Diagnostic}

theorem Text.le_iff {s t : Text} : Text.le s t = true ↔ s ≤ t := by
  simp [Text.le]

theorem Text.le_trans {s t u : Text} (hst : s.le t) (htu : t.le u) : s.le u :=
  le_iff.2 (List.le_trans (le_iff.1 hst) (le_iff.1 htu))

theorem Text.le_total (s t : Text) : s.le t || t.le s := by
  simpa [le_iff] using List.le_total s t

theorem Text.pairwise_mergeSort {α : Type} (key : α → Text) (xs : List α) :
    (xs.mergeSort fun a b => Text.le (key a) (key b)).Pairwise fun a b => key a ≤ key b := by
  refine (List.pairwise_mergeSort ?_ ?_ xs).imp le_iff.1
  · exact fun a b c hab hbc => le_trans hab hbc
  · exact fun a b => le_total (key a) (key b)

theorem filter_mergeSort {α : Type} {le : α → α → Bool} {p : α → Bool}
    (hTrans : ∀ a b c, le a b → le b c → le a c) (hTotal : ∀ a b, le a b || le b a)
    (hSame : ∀ a b, p a → p b → le a b) (xs : List α) : (xs.mergeSort le).filter p = xs.filter p := by
  have hSublist : (xs.filter p).Sublist (xs.mergeSort le) := by
    refine List.sublist_mergeSort hTrans hTotal ?_ List.filter_sublist
    exact List.pairwise_of_forall_mem_list fun a ha b hb =>
      hSame a b (List.mem_filter.1 ha).2 (List.mem_filter.1 hb).2
  have hFilter := hSublist.filter p
  simp only [List.filter_filter, Bool.and_self] at hFilter
  exact (hFilter.eq_of_length ((List.mergeSort_perm xs le).filter p).length_eq.symm).symm

/-- The first letters of the texts of problems of a kind, which no other kind has. -/
def Kind.opening : Kind → Text
  | .alreadyDefined => "symbol alrea"
  | .notDefined => "symbol not d"
  | .notFound => "symbol not f"
  | .typeNotDefined => "type not def"
  | .targetNotFound => "no alternati"
  | .tooManyAlternatives => "too many alt"
  | .notInferable => "cannot infer"
  | _ => ""

def Kind.problems : List Kind :=
  [.alreadyDefined, .notDefined, .notFound, .typeNotDefined, .targetNotFound, .tooManyAlternatives,
    .notInferable]

theorem Kind.opening_inj : ∀ k ∈ problems, ∀ k' ∈ problems, k.opening = k'.opening → k = k' := by
  decide +kernel

theorem Problem.take_message (p : Problem) : p.message.take 12 = p.kind.opening := by
  cases p <;> rfl

theorem Problem.kind_of_message {p q : Problem} (h : p.message = q.message) : p.kind = q.kind := by
  have hMem (p : Problem) : p.kind ∈ Kind.problems := by
    cases p <;> simp [Problem.kind, Kind.problems]
  refine Kind.opening_inj _ (hMem p) _ (hMem q) ?_
  rw [← p.take_message, ← q.take_message, h]

namespace Diagnostic

theorem repeats_refl (e : Diagnostic) : e.repeats e := by simp [repeats]

theorem repeats_iff {e' : Diagnostic} :
    e.repeats e' ↔ e.location = e'.location ∧ e.message = e'.message := by
  simp [repeats]

theorem dropRepeats_go_sublist (kept : Diagnostic) (ds : List Diagnostic) :
    (dropRepeats.go kept ds).Sublist ds := by
  induction ds generalizing kept with
  | nil => exact .slnil
  | cons d rest ih =>
    rw [dropRepeats.go]
    split
    · exact (ih kept).cons d
    · exact (ih d).cons_cons d

theorem dropRepeats_sublist (ds : List Diagnostic) : (dropRepeats ds).Sublist ds := by
  cases ds with
  | nil => exact .slnil
  | cons d rest => exact (dropRepeats_go_sublist d rest).cons_cons d

theorem exists_mem_go {kept : Diagnostic} (h : e ∈ ds) :
    e.repeats kept ∨ ∃ e' ∈ dropRepeats.go kept ds, e.repeats e' := by
  induction ds generalizing kept with
  | nil => simp at h
  | cons d rest ih =>
    rw [dropRepeats.go]
    obtain rfl | h := List.mem_cons.1 h
    · split
      · exact .inl ‹_›
      · exact .inr ⟨e, List.mem_cons_self, e.repeats_refl⟩
    · split
      · exact ih h
      · obtain hRepeats | ⟨e', he', hRepeats⟩ := @ih d h
        · exact .inr ⟨d, List.mem_cons_self, hRepeats⟩
        · exact .inr ⟨e', List.mem_cons_of_mem _ he', hRepeats⟩

theorem exists_mem_dropRepeats (h : e ∈ ds) : ∃ e' ∈ dropRepeats ds, e.repeats e' := by
  cases ds with
  | nil => simp at h
  | cons d rest =>
    rw [dropRepeats]
    obtain rfl | h := List.mem_cons.1 h
    · exact ⟨e, List.mem_cons_self, e.repeats_refl⟩
    · obtain hRepeats | ⟨e', he', hRepeats⟩ := @exists_mem_go _ _ d h
      · exact ⟨d, List.mem_cons_self, hRepeats⟩
      · exact ⟨e', List.mem_cons_of_mem _ he', hRepeats⟩

theorem mem_of_mem_sort (h : e ∈ sort ds) : e ∈ ds :=
  List.mem_mergeSort.1 ((dropRepeats_sublist _).subset h)

theorem exists_mem_sort (h : e ∈ ds) : ∃ e' ∈ sort ds, e.repeats e' :=
  exists_mem_dropRepeats (List.mem_mergeSort.2 h)

theorem filter_sort_subperm (q : Diagnostic → Bool) (ds : List Diagnostic) :
    ((sort ds).filter q).Subperm (ds.filter q) :=
  ((dropRepeats_sublist _).filter q).subperm.trans ((List.mergeSort_perm ds _).filter q).subperm

theorem filter_sort_eq_nil {q : Diagnostic → Bool} (h : ds.filter q = []) :
    (sort ds).filter q = [] :=
  List.subperm_nil.1 (h ▸ filter_sort_subperm q ds)

theorem filter_sort_singleton {q : Diagnostic → Bool} {d : Diagnostic} (h : ds.filter q = [d]) :
    (sort ds).filter q = [d] ∨ (sort ds).filter q = [] := by
  have hSubperm := h ▸ filter_sort_subperm q ds
  obtain ⟨l, hPerm, hSublist⟩ := hSubperm
  obtain rfl | rfl := List.sublist_singleton.1 hSublist
  · exact .inr (List.nil_perm.1 hPerm)
  · exact .inl (List.singleton_perm.1 hPerm).symm

theorem exists_kind_sort (h : e ∈ ds) (hProblems : ∀ d ∈ ds, ∃ p n, d = .ofNode p n) :
    ∃ e' ∈ sort ds, e'.kind = e.kind := by
  obtain ⟨e', he', hRepeats⟩ := exists_mem_sort h
  obtain ⟨p, n, rfl⟩ := hProblems e h
  obtain ⟨p', n', rfl⟩ := hProblems e' (mem_of_mem_sort he')
  exact ⟨_, he', Problem.kind_of_message (repeats_iff.1 hRepeats).2.symm⟩

end Diagnostic

namespace Location

/-- Whether a place starts before another, or where it does: by path, then by line, then by column. -/
def StartsUpTo (a b : Location) : Prop :=
  a.path < b.path ∨ a.path = b.path ∧
    (a.first.line < b.first.line ∨ a.first.line = b.first.line ∧ a.first.column ≤ b.first.column)

def startsAlike (a b : Location) : Bool := a.path = b.path && a.first = b.first

variable {a b c : Location}

theorem StartsUpTo.trans (hab : a.StartsUpTo b) (hbc : b.StartsUpTo c) : a.StartsUpTo c := by
  unfold StartsUpTo at *
  rcases hab with hab | ⟨hab, hab'⟩ <;> rcases hbc with hbc | ⟨hbc, hbc'⟩
  · exact .inl (List.lt_trans hab hbc)
  · exact .inl (hbc ▸ hab)
  · exact .inl (hab ▸ hbc)
  · exact .inr ⟨hab.trans hbc, by omega⟩

theorem startsUpTo_total (a b : Location) : a.StartsUpTo b ∨ b.StartsUpTo a := by
  by_cases hab : a.path < b.path
  · exact .inl (.inl hab)
  by_cases hba : b.path < a.path
  · exact .inr (.inl hba)
  have hPath : a.path = b.path := List.le_antisymm (List.not_lt.1 hba) (List.not_lt.1 hab)
  simp only [StartsUpTo, hPath, List.lt_irrefl, true_and, false_or]
  omega

theorem startsAlike_iff : a.startsAlike b ↔ a.StartsUpTo b ∧ b.StartsUpTo a := by
  have hPoint {p q : Point} (hLine : p.line = q.line) (hColumn : p.column = q.column) : p = q := by
    cases p
    cases q
    simp_all
  simp only [startsAlike, Bool.and_eq_true, decide_eq_true_eq]
  constructor
  · rintro ⟨hPath, hFirst⟩
    simp [StartsUpTo, hPath, hFirst]
  · rintro ⟨hab | ⟨hPath, hab⟩, hba | ⟨hPath', hba⟩⟩
    · exact absurd hba (List.lt_asymm hab)
    · exact absurd (hPath' ▸ hab) (List.lt_irrefl _)
    · exact absurd (hPath ▸ hba) (List.lt_irrefl _)
    · exact ⟨hPath, hPoint (by omega) (by omega)⟩

end Location

namespace Diagnostic

variable {d e kept : Diagnostic} {ds : List Diagnostic}

theorem not_before_iff : (!e.before d) = true ↔ d.location.StartsUpTo e.location := by
  have hPath : e.location.path ≠ d.location.path →
      (¬e.location.path < d.location.path ↔ d.location.path < e.location.path) := by
    intro hne
    refine ⟨fun h => ?_, List.lt_asymm⟩
    by_contra hNot
    exact hne (List.le_antisymm (List.not_lt.1 hNot) (List.not_lt.1 h))
  simp only [before, Location.StartsUpTo, Bool.not_eq_true']
  split
  · rename_i h
    simp only [h, List.lt_irrefl, true_and, false_or]
    split <;> simp <;> omega
  · rename_i h
    simp only [decide_eq_false_iff_not, hPath h, Ne.symm h, false_and, or_false]

/-- The diagnostics in the order of their places, with all repetitions. -/
def arrange (ds : List Diagnostic) : List Diagnostic := ds.mergeSort fun d e => !e.before d

theorem not_before_trans (a b c : Diagnostic) (hab : !b.before a) (hbc : !c.before b) : !c.before a :=
  not_before_iff.2 ((not_before_iff.1 hab).trans (not_before_iff.1 hbc))

theorem not_before_total (a b : Diagnostic) : !b.before a || !a.before b := by
  rw [Bool.or_eq_true, not_before_iff, not_before_iff]
  exact Location.startsUpTo_total _ _

theorem pairwise_arrange (ds : List Diagnostic) :
    (arrange ds).Pairwise fun d e => d.location.StartsUpTo e.location :=
  (List.pairwise_mergeSort not_before_trans not_before_total ds).imp not_before_iff.1

theorem filter_arrange (l : Location) (ds : List Diagnostic) :
    (arrange ds).filter (·.location.startsAlike l) = ds.filter (·.location.startsAlike l) := by
  refine filter_mergeSort not_before_trans not_before_total (fun a b ha hb => ?_) ds
  have ha := (Location.startsAlike_iff.1 ha).1
  exact not_before_iff.2 (ha.trans (Location.startsAlike_iff.1 hb).2)

theorem startsAlike_of_repeats (h : d.repeats e) (l : Location) :
    d.location.startsAlike l = e.location.startsAlike l := by
  rw [(repeats_iff.1 h).1]

theorem filter_go (l : Location)
    (h : (kept :: ds).Pairwise fun d e => d.location.StartsUpTo e.location) :
    (dropRepeats.go kept ds).filter (·.location.startsAlike l) =
      if kept.location.startsAlike l then dropRepeats.go kept (ds.filter (·.location.startsAlike l))
      else dropRepeats (ds.filter (·.location.startsAlike l)) := by
  induction ds generalizing kept with
  | nil => simp [dropRepeats.go, dropRepeats]
  | cons d ds ih =>
    obtain ⟨hKept, hRest⟩ := List.pairwise_cons.1 h
    rw [dropRepeats.go]
    split
    · rename_i hRepeats
      rw [ih (h.sublist ((List.sublist_cons_self d ds).cons_cons kept)),
        List.filter_cons, startsAlike_of_repeats hRepeats]
      split
      · rw [dropRepeats.go, if_pos hRepeats]
      · rfl
    · rename_i hRepeats
      rw [List.filter_cons, List.filter_cons, ih hRest]
      by_cases hd : d.location.startsAlike l
      · simp only [hd, if_true]
        split
        · rw [dropRepeats.go, if_neg hRepeats]
        · rw [dropRepeats]
      · simp only [hd, Bool.false_eq_true, if_false]
        split
        · rename_i hAlike
          -- Nothing after `d` starts where `kept` does.
          have hNil : ds.filter (·.location.startsAlike l) = [] := by
            refine List.filter_eq_nil_iff.2 fun x hx hxl => hd (Location.startsAlike_iff.2 ⟨?_, ?_⟩)
            · have hdx := (List.pairwise_cons.1 hRest).1 x hx
              exact hdx.trans (Location.startsAlike_iff.1 hxl).1
            · exact (Location.startsAlike_iff.1 hAlike).2.trans (hKept d List.mem_cons_self)
          rw [hNil]
          rfl
        · rfl

theorem filter_sort (l : Location) (ds : List Diagnostic) :
    (sort ds).filter (·.location.startsAlike l) = dropRepeats (ds.filter (·.location.startsAlike l)) := by
  rw [← filter_arrange l ds]
  have hSorted := pairwise_arrange ds
  change (dropRepeats (arrange ds)).filter _ = _
  cases hArranged : arrange ds with
  | nil => rfl
  | cons d rest =>
    rw [dropRepeats, List.filter_cons, List.filter_cons, filter_go l (hArranged ▸ hSorted)]
    split
    · rw [dropRepeats]
    · rfl

/-- No other diagnostic stands between two that repeat `e`. -/
def Together (e : Diagnostic) (ds : List Diagnostic) : Prop :=
  ds.Triplewise fun a b c => a.repeats e → c.repeats e → b.repeats e

theorem repeats_congr (h : d.repeats kept) : d.repeats e = kept.repeats e := by
  obtain ⟨hLocation, hMessage⟩ := repeats_iff.1 h
  rw [repeats, repeats, hLocation, hMessage]

theorem countP_go_eq_zero (hKept : ¬kept.repeats e) :
    (dropRepeats.go kept ds).countP (·.repeats e) = 0 ↔ ∀ d ∈ ds, ¬d.repeats e := by
  rw [List.countP_eq_zero]
  refine ⟨fun h d hd hRepeats => ?_, fun h d hd => h d ((dropRepeats_go_sublist _ _).subset hd)⟩
  obtain hSame | ⟨d', hd', hSame⟩ := @exists_mem_go _ _ kept hd
  · exact hKept (repeats_congr hSame ▸ hRepeats)
  · exact h d' hd' (repeats_congr hSame ▸ hRepeats)

theorem countP_go_eq_zero_iff (hKept : kept.repeats e) :
    (dropRepeats.go kept ds).countP (·.repeats e) = 0 ↔
      ds.Pairwise fun b c => c.repeats e → b.repeats e := by
  induction ds with
  | nil => simp [dropRepeats.go]
  | cons d ds ih =>
    rw [dropRepeats.go, List.pairwise_cons]
    by_cases hd : d.repeats e
    · have hSame : d.repeats kept := by
        obtain ⟨hLocation, hMessage⟩ := repeats_iff.1 hd
        obtain ⟨hLocation', hMessage'⟩ := repeats_iff.1 hKept
        exact repeats_iff.2 ⟨hLocation.trans hLocation'.symm, hMessage.trans hMessage'.symm⟩
      rw [if_pos hSame, ih]
      simp [hd]
    · have hOther : ¬d.repeats kept := fun hSame => hd ((repeats_congr hSame).trans hKept)
      rw [if_neg hOther, List.countP_cons, if_neg hd, Nat.add_zero, countP_go_eq_zero hd]
      refine ⟨fun h => ⟨fun c hc hRepeats => absurd hRepeats (h c hc), ?_⟩,
        fun h c hc hRepeats => hd (h.1 c hc hRepeats)⟩
      exact List.pairwise_of_forall_mem_list fun b _ c hc hRepeats => absurd hRepeats (h c hc)

theorem together_of_pairwise (h : ds.Pairwise fun b c => c.repeats e → b.repeats e) : Together e ds := by
  induction h with
  | nil => exact .nil
  | cons _ h ih => exact List.triplewise_cons.2 ⟨h.imp fun h _ => h, ih⟩

theorem together_cons_of_not (hd : ¬d.repeats e) : Together e (d :: ds) ↔ Together e ds := by
  rw [Together, List.triplewise_cons]
  exact and_iff_right (List.pairwise_of_forall fun _ _ h => absurd h hd)

theorem countP_cons_go (hd : d.repeats e) :
    (d :: dropRepeats.go d ds).countP (·.repeats e) = 1 ↔ Together e (d :: ds) := by
  rw [List.countP_cons, if_pos hd, Nat.add_eq_right, countP_go_eq_zero_iff hd, Together,
    List.triplewise_cons]
  simp only [hd, true_imp_iff]
  exact ⟨fun h => ⟨h, together_of_pairwise h⟩, And.left⟩

theorem countP_go_eq_one (hKept : ¬kept.repeats e) (h : ∃ d ∈ ds, d.repeats e) :
    (dropRepeats.go kept ds).countP (·.repeats e) = 1 ↔ Together e ds := by
  induction ds generalizing kept with
  | nil => simp at h
  | cons d ds ih =>
    rw [dropRepeats.go]
    by_cases hd : d.repeats e
    · rw [if_neg fun hSame => hKept ((repeats_congr hSame).symm.trans hd), countP_cons_go hd]
    · rw [together_cons_of_not hd]
      have h : ∃ d ∈ ds, d.repeats e := by simpa [hd] using h
      split
      · exact ih hKept h
      · rw [List.countP_cons, if_neg hd, Nat.add_zero, ih hd h]

theorem countP_dropRepeats_eq_one (h : ∃ d ∈ ds, d.repeats e) :
    (dropRepeats ds).countP (·.repeats e) = 1 ↔ Together e ds := by
  cases ds with
  | nil => simp at h
  | cons d ds =>
    rw [dropRepeats]
    by_cases hd : d.repeats e
    · exact countP_cons_go hd
    · rw [List.countP_cons, if_neg hd, Nat.add_zero, together_cons_of_not hd,
        countP_go_eq_one hd (by simpa [hd] using h)]

theorem isChain_go : (kept :: dropRepeats.go kept ds).IsChain fun d e => ¬e.repeats d := by
  induction ds generalizing kept with
  | nil => simp [dropRepeats.go]
  | cons d ds ih =>
    rw [dropRepeats.go]
    split
    · exact ih
    · exact .cons_cons ‹_› ih

theorem go_of_isChain (h : (kept :: ds).IsChain fun d e => ¬e.repeats d) :
    dropRepeats.go kept ds = ds := by
  induction ds generalizing kept with
  | nil => rfl
  | cons d ds ih =>
    obtain ⟨hd, hRest⟩ := List.isChain_cons_cons.1 h
    rw [dropRepeats.go, if_neg hd, ih hRest]

theorem dropRepeats_dropRepeats (ds : List Diagnostic) : dropRepeats (dropRepeats ds) = dropRepeats ds := by
  cases ds with
  | nil => rfl
  | cons d ds => rw [dropRepeats, dropRepeats, go_of_isChain isChain_go]

theorem pairwise_sort (ds : List Diagnostic) :
    (sort ds).Pairwise fun d e => d.location.StartsUpTo e.location :=
  (pairwise_arrange ds).sublist (dropRepeats_sublist _)

theorem countP_sort_eq_one (h : e ∈ ds) : (sort ds).countP (·.repeats e) = 1 ↔
    Together e (ds.filter (·.location.startsAlike e.location)) := by
  have hSelf {d : Diagnostic} (h : d.repeats e) : d.location.startsAlike e.location := by
    rw [startsAlike_of_repeats h]
    simp [Location.startsAlike]
  have hCount : (sort ds).countP (·.repeats e) =
      ((sort ds).filter (·.location.startsAlike e.location)).countP (·.repeats e) := by
    rw [List.countP_filter]
    exact List.countP_congr fun d _ => by simpa using hSelf
  rw [hCount, filter_sort]
  exact countP_dropRepeats_eq_one ⟨e, List.mem_filter.2 ⟨h, hSelf e.repeats_refl⟩, e.repeats_refl⟩

/-- Diagnostics are sorted by where they start, and keep their order where they start alike. No
diagnostic is new, and each one is still there or repeats one that is; but one alone is left of those
that repeat each other exactly when no other diagnostic that starts there stands between them. To sort
again changes nothing. -/
theorem sort_keeps_order_and_drops_neighbours (ds : List Diagnostic) :
    (sort ds).Pairwise (fun d e => d.location.StartsUpTo e.location) ∧
    (∀ l, ((sort ds).filter (·.location.startsAlike l)).Sublist
      (ds.filter (·.location.startsAlike l))) ∧
    (∀ e ∈ sort ds, e ∈ ds) ∧ (∀ e ∈ ds, ∃ e' ∈ sort ds, e.repeats e') ∧
    (∀ e ∈ ds, (sort ds).countP (·.repeats e) = 1 ↔
      Together e (ds.filter (·.location.startsAlike e.location))) ∧
    sort (sort ds) = sort ds := by
  refine ⟨pairwise_sort ds, fun l => ?_, fun e => mem_of_mem_sort, fun e => exists_mem_sort,
    fun e => countP_sort_eq_one, ?_⟩
  · rw [filter_sort]
    exact dropRepeats_sublist _
  · have hSorted := (pairwise_sort ds).imp not_before_iff.2
    rw [sort, List.mergeSort_of_pairwise hSorted]
    exact dropRepeats_dropRepeats _

def fixed (message : Text) : Diagnostic := ⟨.notFound, none, some ⟨⟨"a.th", ⟨2, 5⟩, ⟨2, 7⟩⟩, []⟩, message, []⟩

/-- A repetition stays if another diagnostic at the same place stands before it. -/
theorem repetition_kept_after_another :
    sort [fixed "a", fixed "b", fixed "a"] = [fixed "a", fixed "b", fixed "a"] ∧
      (sort [fixed "a", fixed "b", fixed "a"]).countP (·.repeats (fixed "a")) = 2 := by
  have hSorted : [fixed "a", fixed "b", fixed "a"].Pairwise fun d e => !e.before d := by decide
  have hSort : sort [fixed "a", fixed "b", fixed "a"] = [fixed "a", fixed "b", fixed "a"] := by
    rw [sort, List.mergeSort_of_pairwise hSorted]
    rfl
  rw [hSort]
  exact ⟨rfl, by decide⟩

end Diagnostic

end Assay
