import Mathlib
import Assay.Compilation
import Assay.Proofs.Checked

/-! Compilation on demand. A unit is compiled in a world in which those that are being compiled have
declared their types, and in the end it is compiled, its source is read once, and what belongs to
others is as it was. So no more units are ever compiled at a time than are pending. -/

namespace Assay

open Check (Leads)

namespace World

/-- The world with the unit of a name replaced by another one. -/
def put (w : World) (v : SourceUnit) : World :=
  { w with units := w.units.map fun u => if u.name = v.name then v else u }

/-- The world in which the source of a unit, which was pending, is read. -/
def start (w : World) (v : SourceUnit) (next : Nat) : World :=
  { w.put v with store := { w.store with next }, files := w.files.add v.path v.text }

def pending (w : World) : Nat := (w.units.filter (·.status = .pending)).length

variable {w : World} {u v : SourceUnit}

theorem eq_or_mem_of_mem_put (h : u ∈ (w.put v).units) : u = v ∨ u ∈ w.units ∧ u.name ≠ v.name := by
  obtain ⟨x, hx, rfl⟩ := List.mem_map.1 h
  split
  · exact .inl rfl
  · exact .inr ⟨hx, by assumption⟩

theorem mem_put (hu : u ∈ w.units) (hName : v.name = u.name) : v ∈ (w.put v).units :=
  List.mem_map.2 ⟨u, hu, if_pos hName.symm⟩

theorem mem_put_of_ne (hu : u ∈ w.units) (hName : u.name ≠ v.name) : u ∈ (w.put v).units :=
  List.mem_map.2 ⟨u, hu, if_neg hName⟩

theorem names_put (w : World) (v : SourceUnit) :
    (w.put v).units.map (·.name) = w.units.map (·.name) := by
  rw [put, List.map_map]
  refine List.map_congr_left fun u _ => ?_
  simp only [Function.comp_apply]
  split
  · rename_i h
    exact h.symm
  · rfl

theorem put_put {v' : SourceUnit} (w : World) (hName : v'.name = v.name) :
    (w.put v).put v' = w.put v' := by
  have hUnits : ((w.put v).put v').units = (w.put v').units := by
    change (w.units.map _).map _ = w.units.map _
    rw [List.map_map]
    refine List.map_congr_left fun x _ => ?_
    simp only [Function.comp_apply, hName]
    by_cases h : x.name = v.name
    · rw [if_pos h, if_pos rfl, if_pos h]
    · rw [if_neg h, if_neg h]
  exact congrArg (fun units => ({ w with units } : World)) hUnits

end World

variable {plain : Plain} {K : Nat → Prop} {T : Root Meta → Prop} {b w w' : World}
  {u v : SourceUnit}

theorem Sound.eq_of_name (h : Sound plain w) (hu : u ∈ w.units) (hv : v ∈ w.units)
    (hName : v.name = u.name) : v = u :=
  List.inj_on_of_nodup_map h.names hv hu hName

theorem Sound.grow (h : Sound plain w) {k : Nat} (hk : w.store.next ≤ k) :
    Sound plain { w with store := { w.store with next := k } } :=
  h.change ⟨rfl, rfl, rfl, rfl, hk, fun hFree => hFree, id, .inl, List.suffix_refl _, .inl⟩

theorem Sound.setFiles (h : Sound plain w) (files : Files) : Sound plain { w with files } :=
  { h with
    table := fun hEntry => (h.table hEntry).mono
      ⟨Nat.le_refl _, fun d hd => ⟨d, hd, rfl, rfl⟩, id, fun u hu r hr => ⟨u, hu, rfl, r, hr, rfl⟩⟩ }

/-- What the new record of a unit has to satisfy, if it has another tree. -/
structure SourceUnit.Renewal (plain : Plain) (w : World) (u v : SourceUnit) : Prop where
  below : ∀ r, v.root = some r → (Node.root r).Below w.store.next
  unread : v.status = .pending → v.root = none
  tree : ∀ r, u.root = some r → ∃ r', v.root = some r' ∧ r'.fullName = r.fullName
  named : plain → ∀ r, v.root = some r → ∀ d ∈ w.store.tops, d.Of r → d.name = r.fullName
  outcome : plain → v.status = .compiled → v.Outcome w.store

theorem Sound.grows_put (h : Sound plain w) (hu : u ∈ w.units) (hName : v.name = u.name)
    (hv : u.Renewal plain w v) : w.Grows (w.put v) where
  next := Nat.le_refl _
  tops d hd := ⟨d, hd, rfl, rfl⟩
  taken := id
  trees x hx r hr := by
    by_cases hEq : x.name = v.name
    · obtain rfl := h.eq_of_name hu hx (hEq.trans hName)
      exact ⟨v, World.mem_put hx hName, hName, hv.tree r hr⟩
    · exact ⟨x, World.mem_put_of_ne hx hEq, rfl, r, hr, rfl⟩

theorem Sound.put (h : Sound plain w) (hu : u ∈ w.units) (hName : v.name = u.name)
    (hSpace : v.space = u.space) (hv : u.Renewal plain w v) : Sound plain (w.put v) where
  names := w.names_put v ▸ h.names
  spaces hp x hx := by
    obtain rfl | ⟨hx, _⟩ := World.eq_or_mem_of_mem_put hx
    · exact hSpace ▸ h.spaces hp u hu
    · exact h.spaces hp x hx
  loaders := h.loaders
  given := h.given
  filled := h.filled
  table hEntry := (h.table hEntry).mono (h.grows_put hu hName hv)
  logged := h.logged
  refs := h.refs
  tops := h.tops
  apart := h.apart
  topNames := h.topNames
  roots x hx := by
    obtain rfl | ⟨hx, _⟩ := World.eq_or_mem_of_mem_put hx
    · exact hv.below
    · exact h.roots x hx
  unread x hx := by
    obtain rfl | ⟨hx, _⟩ := World.eq_or_mem_of_mem_put hx
    · exact hv.unread
    · exact h.unread x hx
  named hp x hx := by
    obtain rfl | ⟨hx, _⟩ := World.eq_or_mem_of_mem_put hx
    · exact hv.named hp
    · exact h.named hp x hx
  outcomes hp x hx := by
    obtain rfl | ⟨hx, _⟩ := World.eq_or_mem_of_mem_put hx
    · exact hv.outcome hp
    · exact h.outcomes hp x hx

theorem Sound.start (h : Sound plain w) (hu : u ∈ w.units) (hPending : u.status = .pending)
    (hName : v.name = u.name) (hSpace : v.space = u.space) {next : Nat}
    (hNext : w.store.next ≤ next)
    (hRoot : ∀ r, v.root = some r → (Node.root r).Below next ∧ w.store.next ≤ r.top.ann.id)
    (hStatus : v.status = .compiling) : Sound plain (w.start v next) := by
  refine ((h.grow hNext).put hu hName hSpace ⟨fun r hr => (hRoot r hr).1, fun hNow => ?_,
    fun r hr => ?_, fun _ r hr d hd hOf => ?_, fun _ hNow => ?_⟩).setFiles _
  · simp [hStatus] at hNow
  · simp [h.unread u hu hPending] at hr
  · have hId := (h.tops d hd).id
    have hTopId : d.top.ann.id < w.store.next := (h.tops d hd).top.self
    have hNew := (hRoot r hr).2
    obtain hOwn | hOwn := hOf
    · omega
    · omega
  · simp [hStatus] at hNow

theorem Sound.put_self (h : Sound plain w) (hu : u ∈ w.units) : w.put u = w := by
  have hUnits : (w.put u).units = w.units := by
    refine (List.map_congr_left (g := id) fun x hx => ?_).trans (List.map_id _)
    split
    · rename_i hName
      exact (h.eq_of_name hu hx hName).symm
    · rfl
  exact congrArg (fun units => ({ w with units } : World)) hUnits

/-- A record of the same source. -/
structure SourceUnit.SameSource (u v : SourceUnit) : Prop where
  name : v.name = u.name
  space : v.space = u.space
  path : v.path = u.path
  text : v.text = u.text

theorem SourceUnit.Step.sameSource {K : Nat → Prop} (h : u.Step K v) : u.SameSource v := by
  obtain rfl | ⟨_, _, hName, hSpace, hPath, hText, _⟩ := h
  · exact ⟨rfl, rfl, rfl, rfl⟩
  · exact ⟨hName, hSpace, hPath, hText⟩

theorem Sound.changeUnit (h : Sound plain w) (hu : u ∈ w.units) {s : State} (hs : s.world = w)
    {f : SourceUnit → SourceUnit} (hName : (f u).name = u.name) :
    (s.changeUnit u.name f).world = w.put (f u) := by
  subst hs
  have hUnits : (s.changeUnit u.name f).units = (s.world.put (f u)).units := by
    refine List.map_congr_left fun x hx => ?_
    rw [hName]
    split
    · rename_i hEq
      rw [h.eq_of_name hu hx hEq]
    · rfl
  exact congrArg (fun units => ({ s.world with units } : World)) hUnits

theorem Sound.split_put (h : Sound plain w) (hu : u ∈ w.units) (hName : v.name = u.name) :
    ∃ before after, w.units = before ++ u :: after ∧ (w.put v).units = before ++ v :: after := by
  obtain ⟨before, after, hSplit⟩ := List.append_of_mem hu
  have hOther {x : SourceUnit} (hx : x ∈ w.units) (hNe : x ≠ u) : x.name ≠ v.name :=
    fun hEq => hNe (h.eq_of_name hu hx (hEq.trans hName))
  have hNodup : (before ++ u :: after).Nodup := hSplit ▸ h.names.of_map
  rw [List.nodup_append, List.nodup_cons] at hNodup
  obtain ⟨_, ⟨hAfter, _⟩, hBefore⟩ := hNodup
  have hSame {xs : List SourceUnit} (hxs : ∀ x ∈ xs, x ∈ w.units ∧ x ≠ u) :
      xs.map (fun x => if x.name = v.name then v else x) = xs :=
    (List.map_congr_left (g := id) fun x hx => if_neg (hOther (hxs x hx).1 (hxs x hx).2)).trans
      (List.map_id _)
  refine ⟨before, after, hSplit, ?_⟩
  change w.units.map _ = _
  rw [hSplit, List.map_append, List.map_cons, if_pos hName.symm]
  rw [hSame fun x hx => ⟨by simp [hSplit, hx], hBefore x hx u List.mem_cons_self⟩,
    hSame fun x hx => ⟨by simp [hSplit, hx], fun hEq => hAfter (hEq ▸ hx)⟩]

theorem Sound.started_put (h : Sound plain w) (hu : u ∈ w.units) (hName : v.name = u.name)
    (hPath : v.path = u.path) (hText : v.text = u.text) (hv : v.status ≠ .pending) :
    (w.put v).started =
      if u.status = .pending then (u.path, u.text) ::ₘ w.started else w.started := by
  obtain ⟨before, after, hSplit, hPut⟩ := h.split_put hu hName
  unfold World.started
  rw [hSplit, hPut]
  by_cases hPending : u.status = .pending
  · simp [List.filter_append, hPending, hv, hPath, hText, ← Multiset.coe_add,
      ← Multiset.cons_coe]
  · simp [List.filter_append, hPending, hv, hPath, hText]

theorem Sound.pending_put (h : Sound plain w) (hu : u ∈ w.units) (hName : v.name = u.name)
    (hPending : u.status = .pending) (hv : v.status ≠ .pending) :
    (w.put v).pending + 1 = w.pending := by
  obtain ⟨before, after, hSplit, hPut⟩ := h.split_put hu hName
  unfold World.pending
  rw [hSplit, hPut]
  simp [List.filter_append, hPending, hv]
  omega

/-- The records of a unit that was compiled in a world, before, while and after it was. -/
structure Compiles (w : World) (u v v' : SourceUnit) : Prop where
  mem : u ∈ w.units
  pending : u.status = .pending
  compiling : v.status = .compiling
  compiled : v'.status = .compiled
  start : u.SameSource v
  finish : u.SameSource v'
  clear : ∀ r, v'.root = some r → (Node.root r).Clear (· < w.store.next)

theorem Compiles.moves {v' : SourceUnit} {next : Nat} (h : Compiles w u v v')
    (hSound : Sound plain w) (hNext : w.store.next ≤ next) (hSound' : Sound plain w')
    (hMoves : Moves plain (· < w.store.next) T (w.start v next) w')
    (hT : ∀ r, T r → v'.root = some r) :
    Moves plain (· < w.store.next) (fun _ => False) w (w'.put v') := by
  have hv : v ∈ (w.start v next).units := World.mem_put h.mem h.start.name
  have hv' : v ∈ w'.units := hMoves.mem_units hv (by simp [h.compiling])
  have hNames : v'.name = v.name := h.finish.name.trans h.start.name.symm
  refine
    { next := hNext.trans hMoves.next
      config := hMoves.config
      tops := hMoves.tops
      taken := hMoves.taken
      bodies := hMoves.bodies
      log := hMoves.log
      links := hMoves.links
      refs := hMoves.refs
      types := fun hp i hi => (hMoves.types hp i hi).imp_right fun hAssigns => ?_
      units := ?_
      files := ?_ }
  · -- The trees whose assignments count are those of the unit and of units compiled in between.
    obtain ⟨r, hr, hAssign⟩ := hAssigns
    refine ⟨r, .inr ?_, hAssign⟩
    obtain hr | ⟨x, hx, hStatus, hRoot⟩ := hr
    · exact ⟨v', World.mem_put hv' hNames, h.compiled, hT r hr, h.clear r (hT r hr)⟩
    · refine ⟨x, World.mem_put_of_ne hx fun hEq => ?_, hStatus, hRoot⟩
      rw [hSound'.eq_of_name hv' hx (hEq.trans hNames), h.compiling] at hStatus
      exact nomatch hStatus
  · have hUnits : List.Forall₂ (fun x y => SourceUnit.Step (· < w.store.next)
        (if x.name = v.name then v else x) y) w.units w'.units :=
      List.forall₂_map_left_iff.1 hMoves.units
    refine List.forall₂_map_right_iff.2 (((List.forall₂_and_left _ _).2 ⟨fun x hx => hx, hUnits⟩).imp
      fun x y ⟨hx, hStep⟩ => ?_)
    by_cases hEq : x.name = v.name
    · obtain rfl := hSound.eq_of_name h.mem hx (hEq.trans h.start.name)
      rw [if_pos hEq] at hStep
      obtain rfl := hStep.eq_of_started (by simp [h.compiling])
      rw [if_pos hNames.symm]
      exact .inr ⟨h.pending, h.compiled, h.finish.name, h.finish.space, h.finish.path, h.finish.text, h.clear⟩
    · rw [if_neg hEq] at hStep
      rw [if_neg (by rw [hStep.name, hNames]; exact hEq)]
      exact hStep
  · have hRead : (w.start v next).read = (u.path, u.text) ::ₘ w.read := by
      simp [World.read, World.start, Files.add, h.start.path, h.start.text, ← Multiset.coe_add,
        ← Multiset.cons_coe, add_comm]
    have hStarted : (w.start v next).started = (u.path, u.text) ::ₘ w.started := by
      have := hSound.started_put h.mem h.start.name h.start.path h.start.text (by simp [h.compiling])
      rwa [if_pos h.pending] at this
    have hEnd : (w'.put v').started = w'.started := by
      have := hSound'.started_put hv' hNames (h.finish.path.trans h.start.path.symm)
        (h.finish.text.trans h.start.text.symm) (by simp [h.compiled])
      rwa [if_neg (by simp [h.compiling])] at this
    have hFiles := hMoves.files
    rw [hRead, hStarted, Multiset.add_cons, Multiset.cons_add, Multiset.cons_inj_right] at hFiles
    rw [hEnd]
    exact hFiles

/-- The work on a unit is done but for its status: it was started as `v`, which led to the world
`w'`, and its record is to be `v'`. -/
structure Worked (plain : Plain) (w : World) (u v v' : SourceUnit) (next : Nat)
    (T : Root Meta → Prop) (w' : World) : Prop where
  compiles : Compiles w u v { v' with status := .compiled }
  status : v'.status = .compiling
  le : w.store.next ≤ next
  sound : Sound plain w'
  moves : Moves plain (· < w.store.next) T (w.start v next) w'
  trees : ∀ r, T r → v'.root = some r
  below : ∀ r, v'.root = some r → (Node.root r).Below w'.store.next
  tree : ∀ r, v.root = some r → ∃ r', v'.root = some r' ∧ r'.fullName = r.fullName
  named : plain → ∀ r, v'.root = some r → ∀ d ∈ w'.store.tops, d.Of r → d.name = r.fullName
  outcome : plain → v'.Outcome w'.store

/-- What is declared between two worlds is declared by the given unit, or by units that are
compiled. -/
def SourceUnit.Owns (v : SourceUnit) (w w' : World) : Prop :=
  ∀ d ∈ w'.store.tops, d ∈ w.store.tops ∨ (∃ r, v.root = some r ∧ d.Of r) ∨
    ∃ x ∈ w'.units, x.status = .compiled ∧ ∃ r, x.root = some r ∧ d.Of r

namespace Worked

variable {v' : SourceUnit} {next : Nat}

theorem mem (h : Worked plain w u v v' next T w') : v ∈ w'.units :=
  h.moves.mem_units (World.mem_put h.compiles.mem h.compiles.start.name)
    (by simp [h.compiles.compiling])

theorem name (h : Worked plain w u v v' next T w') : v'.name = v.name :=
  h.compiles.finish.name.trans h.compiles.start.name.symm

theorem sound_put (h : Worked plain w u v v' next T w') {status : Status}
    (hStatus : status ≠ .pending) : Sound plain (w'.put { v' with status }) := by
  have hSpace : v'.space = v.space :=
    h.compiles.finish.space.trans h.compiles.start.space.symm
  exact h.sound.put h.mem h.name hSpace ⟨h.below, fun hPending => absurd hPending hStatus, h.tree,
    h.named, fun hp _ => ⟨(h.outcome hp).unread, (h.outcome hp).read, (h.outcome hp).declared⟩⟩

theorem moves_put (h : Worked plain w u v v' next T w') (hSound : Sound plain w) :
    Moves plain (· < w.store.next) (fun _ => False) w (w'.put { v' with status := .compiled }) :=
  h.compiles.moves hSound h.le h.sound h.moves h.trees

theorem advances (h : Worked plain w u v v' next T w') (hSound : Sound plain w)
    (hOwns : v'.Owns w w') : Advances plain w (w'.put { v' with status := .compiled }) where
  sound := h.sound_put nofun
  moves := h.moves_put hSound
  owned d hd := by
    obtain hOld | hOwn | ⟨x, hx, hStatus, hOf⟩ := hOwns d hd
    · exact .inl hOld
    · exact .inr ⟨_, World.mem_put h.mem h.name, rfl, hOwn⟩
    · refine .inr ⟨x, World.mem_put_of_ne hx fun hEq => ?_, hStatus, hOf⟩
      rw [h.sound.eq_of_name h.mem hx (hEq.trans h.name), h.compiles.compiling] at hStatus
      exact nomatch hStatus

end Worked

namespace Compilation

theorem read_spec (hSound : Sound plain w) (hu : u ∈ w.units) (hPending : u.status = .pending)
    {F : Fault → World → Prop} :
    Leads (read u) (w.put { u with status := .compiling }) F fun result w' =>
      ∃ v next, w' = w.start v next ∧ v.status = .compiling ∧ u.SameSource v ∧
        w.store.next ≤ next ∧
          match result with
          | none => v.root = none ∧ ∃ e, Root.parse u.space u.text w.store.next = .error e
          | some r => v.root = some r ∧ r.space = u.space ∧
            Span w.store.next next (Node.root r).ids ∧ (Node.root r).All Node.Worded ∧
              ∃ root, Root.parse u.space u.text w.store.next = .ok (root, next) ∧
                root.fullName = r.fullName := by
  have hUnread : u.root = none := hSound.unread u hu hPending
  have hSound₀ : Sound plain (w.put { u with status := .compiling }) :=
    hSound.put hu rfl rfl ⟨by simp [hUnread], by simp, by simp [hUnread], by simp [hUnread], by simp⟩
  have hStart {v : SourceUnit} {next : Nat} (hName : v.name = u.name) (hPath : v.path = u.path)
      (hText : v.text = u.text) :
      ({ w.put { u with status := .compiling } with
          store := { w.store with next }, files := w.files.add u.path u.text } : World).put v =
        w.start v next := by
    have hUnits := congrArg World.units (w.put_put (v := { u with status := .compiling }) hName)
    rw [World.start, hPath, hText]
    exact congrArg (fun units => (⟨{ w.store with next }, w.config, _, units⟩ : World)) hUnits
  unfold read
  refine .get fun s hs => ?_
  obtain ⟨hStore, hFiles⟩ : s.store = w.store ∧ s.files = w.files := by
    exact ⟨congrArg World.store hs, congrArg World.files hs⟩
  cases hRead : Root.read s.files u.space u.path u.text s.store.next with
  | mk files rest =>
    obtain ⟨result, next⟩ := rest
    obtain ⟨rfl, hNext, hOk⟩ := Root.read_spec hRead
    have hParse := Root.parse_of_read hRead
    simp only
    rw [hStore] at hNext hOk hParse
    -- The state in which the source is read, and the record of the unit there.
    have hSet : ({ s with
          files := s.files.add u.path u.text, store := { s.store with next } } : State).world =
        { w.put { u with status := .compiling } with
          store := { w.store with next }, files := w.files.add u.path u.text } := by
      rw [← hs, hStore, hFiles]
      rfl
    have hSound₁ : Sound plain ({ w.put { u with status := .compiling } with
          store := { w.store with next }, files := w.files.add u.path u.text } : World) :=
      (hSound₀.grow hNext).setFiles _
    have hMem := World.mem_put (v := { u with status := .compiling }) hu rfl
    refine .bind (.set (Q := fun _ w' => w' = _) hSet) fun _ w₁ hw₁ => ?_
    subst hw₁
    cases result with
    | error m =>
      refine .bind (.modified (Q := fun _ w' => w' =
        w.start { u with status := .compiling, errors := [m.diagnostic] } next)
        (fun s' hs' => (hSound₁.changeUnit hMem hs' (by rfl)).trans (hStart rfl rfl rfl)) rfl)
        fun _ w₂ hw₂ => .pure ⟨_, next, hw₂, rfl, ⟨rfl, rfl, rfl, rfl⟩, hNext, hUnread, hParse.2 m rfl⟩
    | ok r =>
      obtain ⟨hSpace, hSpan, hWorded⟩ := hOk r rfl
      obtain ⟨root, hRoot, hr⟩ := hParse.1 r rfl
      refine .bind (.modified (Q := fun _ w' => w' =
        w.start { u with status := .compiling, root := some r } next)
        (fun s' hs' => (hSound₁.changeUnit hMem hs' (by rfl)).trans (hStart rfl rfl rfl)) rfl)
        fun _ w₂ hw₂ => .pure ⟨_, next, hw₂, rfl, ⟨rfl, rfl, rfl, rfl⟩, hNext, rfl, hSpace, hSpan,
          hWorded, root, hRoot, ?_⟩
      rw [hr, Root.fullName_map]

theorem check_spec {check : Root Meta → Check (Root Meta × List Diagnostic)} {depth : Nat}
    (hCheck : Checks plain depth check) (hSound : Sound plain w) (hFlying : Flying w)
    (hu : u ∈ w.units) (hPending : u.status = .pending) (hDepth : w.pending ≤ depth + 1)
    {r : Root Meta} {next : Nat} (hStatus : v.status = .compiling) (hv : u.SameSource v)
    (hRoot : v.root = some r) (hSpace : r.space = u.space)
    (hSpan : Span w.store.next next (Node.root r).ids) (hWorded : (Node.root r).All Node.Worded)
    (hParse : ∃ root, Root.parse u.space u.text w.store.next = .ok (root, next) ∧
      root.fullName = r.fullName) :
    Leads (do
        let (r, errors) ← check r
        modify fun s => s.changeUnit u.name fun u => { u with root := some r, errors })
      (w.start v next)
      (fun f w' => ¬plain ∧ f.OfNames ∧ ∃ T, Worked plain w u v v next T w')
      fun _ w' => ∃ v' T w₂, Worked plain w u v v' next T w₂ ∧ v'.Owns w w₂ ∧ w' = w₂.put v' := by
  have hIds : ∀ k ∈ (Node.root r).nodes, w.store.next ≤ k.ann.id ∧ k.ann.id < next :=
    fun k hk => hSpan.mem _ (List.mem_map_of_mem hk)
  have hTop : w.store.next ≤ r.top.ann.id :=
    (hIds (.top r.top) (Node.mem_nodes_of_child (Node.self_mem_nodes _) (by simp [Node.children]))).1
  have hBelow : ∀ r', v.root = some r' → (Node.root r').Below next ∧ w.store.next ≤ r'.top.ann.id := by
    intro r' hr'
    obtain rfl := Option.some.inj (hRoot.symm.trans hr')
    exact ⟨fun k hk => (hIds k hk).2, hTop⟩
  have hStarted : Sound plain (w.start v next) :=
    hSound.start hu hPending hv.name hv.space hSpan.le hBelow hStatus
  have hChecking : Checking plain (· < w.store.next) (fun _ => False) (w.start v next) r.place
      r.top.ann.id (w.start v next) := by
    refine .of_read hStarted hSpan hWorded (fun hp => hSpace ▸ hSound.spaces hp u hu)
      (fun d hd => ⟨(hSound.tops d hd).id, (hSound.tops d hd).top.self⟩) hSound.logged
      (fun x hx hCompiling => ?_) fun x hx r' hr' => ?_
    · obtain rfl | ⟨hx, _⟩ := World.eq_or_mem_of_mem_put hx
      · exact ⟨r, hRoot, .inr rfl⟩
      · obtain ⟨r', d, hr', hd, hId, hName⟩ := hFlying x hx hCompiling
        exact ⟨r', hr', .inl ⟨d, hd, hId, hName⟩⟩
    · obtain rfl | ⟨hx, _⟩ := World.eq_or_mem_of_mem_put hx
      · exact .inl ⟨Option.some.inj (hr'.symm.trans hRoot), hStatus⟩
      · exact .inr ((hSound.roots x hx r' hr').child (k := .top r'.top) (by simp [Node.children])).self
  have hRoom : (w.start v next).pending ≤ depth := by
    have := hSound.pending_put hu hv.name hPending (v := v) (by simp [hStatus])
    change (w.put v).pending ≤ depth
    omega
  refine ((hCheck hRoom hChecking).mono (fun f w' hFail => ?_) fun _ _ => id).bind
    fun result w₂ hChecked => ?_
  · refine ⟨hFail.odd, hFail.ofNames, fun _ => False,
      ⟨hu, hPending, hStatus, rfl, hv, ⟨hv.name, hv.space, hv.path, hv.text⟩, fun r' hr' k hk => ?_⟩,
      hStatus, hSpan.le, hFail.sound, hFail.moves, fun _ => False.elim, fun r' hr' => ?_,
      fun r' hr' => ⟨r', hr', rfl⟩, fun hp => absurd hp hFail.odd, fun hp => absurd hp hFail.odd⟩
    · obtain rfl := Option.some.inj (hRoot.symm.trans hr')
      exact Nat.not_lt.2 (hIds k hk).1
    · exact (hBelow r' hr').1.mono hFail.moves.next
  · obtain ⟨r', errors⟩ := result
    have hMoves := hChecked.checking.moves
    have hMem : v ∈ w₂.units :=
      hMoves.mem_units (World.mem_put hu hv.name) (by simp [hStatus])
    have hChange (s : State) (hs : s.world = w₂) :
        (s.changeUnit u.name fun x => { x with root := some r', errors }).world =
          w₂.put { v with root := some r', errors } :=
      hv.name ▸ hChecked.checking.sound.changeUnit hMem hs rfl
    refine .modified hChange ⟨{ v with root := some r', errors }, _, w₂,
      { compiles := ⟨hu, hPending, hStatus, rfl, hv, ⟨hv.name, hv.space, hv.path, hv.text⟩, ?_⟩
        status := hStatus
        le := hSpan.le
        sound := hChecked.checking.sound
        moves := hMoves
        trees := ?_
        below := ?_
        tree := fun r₀ hr₀ => ⟨r', rfl, ?_⟩
        named := ?_
        outcome := fun hp => ⟨by simp, ?_, ?_⟩ }, fun d hd => ?_, rfl⟩
    · rintro _ ⟨⟩
      exact hChecked.checking.fit.mono fun _ hk => hk.clear
    · rintro _ rfl
      rfl
    · rintro _ ⟨⟩
      exact hChecked.checking.fit.mono fun _ hk => hk.high
    · rw [← Option.some.inj (hRoot.symm.trans hr₀)]
      exact hChecked.fullName
    · rintro _ _ ⟨⟩ d hd hOf
      exact hChecked.named hd hOf
    · rintro _ ⟨⟩
      obtain ⟨root, hRead, hFull⟩ := hParse
      rw [← hv.space, ← hv.text] at hRead
      exact ⟨_, root, next, hRead, hFull.trans hChecked.fullName.symm⟩
    · rintro _ ⟨⟩
      exact hChecked.declared hp
    · obtain hOld | hFirst | hOther := hChecked.checking.owned d hd
      · exact .inl hOld
      · exact .inr (.inl ⟨r', rfl, (hChecked.of_iff hd).2 hFirst⟩)
      · exact .inr (.inr hOther)

/-- Compiles a unit that is pending, with the given way to check its source. -/
def compileBy (check : Root Meta → Check (Root Meta × List Diagnostic)) (u : SourceUnit) :
    Check Unit :=
  match u.status with
  | .compiling | .compiled => pure ()
  | .pending =>
    Check.traced ("compile(" ++ u.name ++ ")") (fun _ => []) do
      let setStatus (status : Status) : Check Unit :=
        modify fun s => s.changeUnit u.name fun u => { u with status }
      setStatus .compiling
      try
        match ← read u with
        | none => pure ()
        | some r =>
          let (r, errors) ← check r
          modify fun s => s.changeUnit u.name fun u => { u with root := some r, errors }
      catch f =>
        setStatus .compiled
        throw f
      setStatus .compiled

theorem compileWith_eq_compileBy (load : Load) : compileWith load = compileBy (Root.check load) :=
  rfl

/-- How a unit is to be compiled, with at most `depth` units pending. In the end it is pending no
more. -/
def Compiles (plain : Plain) (depth : Nat) (compile : SourceUnit → Check Unit) : Prop :=
  ∀ {w u}, Sound plain w → Flying w → u ∈ w.units → w.pending ≤ depth →
    Leads (compile u) w (Failing plain (· < w.store.next) w) fun _ w' => Advances plain w w' ∧
      ∃ u' ∈ w'.units, u'.name = u.name ∧ u'.status ≠ .pending

theorem compileBy_spec {check : Root Meta → Check (Root Meta × List Diagnostic)} {depth : Nat}
    (hCheck : Checks plain depth check) : Compiles plain (depth + 1) (compileBy check) := by
  intro w u hSound hFlying hu hDepth
  unfold compileBy
  split
  · exact .pure ⟨.refl hSound, u, hu, rfl, by simp [*]⟩
  · exact .pure ⟨.refl hSound, u, hu, rfl, by simp [*]⟩
  · rename_i hPending
    -- The last step in both cases: the unit is compiled.
    have hFinish {v v' : SourceUnit} {next : Nat} {T : Root Meta → Prop} {w₂ : World}
        (h : Worked plain w u v v' next T w₂) (s : State) (hs : s.world = w₂.put v') :
        (s.changeUnit u.name fun x => { x with status := .compiled }).world =
          w₂.put { v' with status := .compiled } := by
      have hSound' : Sound plain (w₂.put v') := by
        exact h.sound_put (by simp [h.status])
      have hName : v'.name = u.name := h.compiles.finish.name
      rw [← hName]
      exact (hSound'.changeUnit (World.mem_put h.mem h.name) hs rfl).trans (w₂.put_put rfl)
    refine .traced ?_
    refine .bind (P := fun _ w' => w' = w.put { u with status := .compiling })
      (.modified (fun s hs => hSound.changeUnit hu hs rfl) rfl) fun _ w₁ hw₁ => ?_
    subst hw₁
    refine .bind (P := fun _ w' => ∃ v v' next T w₂, Worked plain w u v v' next T w₂ ∧
      v'.Owns w w₂ ∧ w' = w₂.put v') (.caught (G := fun f w' => ¬plain ∧ f.OfNames ∧
        ∃ v v' next T w₂, Worked plain w u v v' next T w₂ ∧ w' = w₂.put v') ?_
        fun f w' hFault => ?_) fun _ w₃ h₃ => ?_
    · refine (read_spec hSound hu hPending).bind
        fun result w₁ ⟨v, next, hw₁, hStatus, hv, hNext, hResult⟩ => ?_
      subst hw₁
      cases result with
      | none =>
        obtain ⟨hRoot, hParse⟩ := hResult
        have hStarted : Sound plain (w.start v next) :=
          hSound.start hu hPending hv.name hv.space hNext (by simp [hRoot]) hStatus
        refine .pure ⟨v, v, next, fun _ => False, _,
          { compiles := ⟨hu, hPending, hStatus, rfl, hv, ⟨hv.name, hv.space, hv.path, hv.text⟩,
              by simp [hRoot]⟩
            status := hStatus
            le := hNext
            sound := hStarted
            moves := .refl _ _ _ _
            trees := fun _ => False.elim
            below := by simp [hRoot]
            tree := by simp [hRoot]
            named := by simp [hRoot]
            outcome := fun _ => ⟨fun _ => ?_, by simp [hRoot], by simp [hRoot]⟩ },
          fun d hd => .inl hd, ?_⟩
        · rw [hv.space, hv.text]
          exact ⟨_, hParse⟩
        · exact (hStarted.put_self (World.mem_put hu hv.name)).symm
      | some r =>
        obtain ⟨hRoot, hSpace, hSpan, hWorded, hParse⟩ := hResult
        refine (check_spec hCheck hSound hFlying hu hPending hDepth hStatus hv hRoot hSpace hSpan
          hWorded hParse).mono (fun f w' ⟨hOdd, hNames, T, hWorked⟩ => ⟨hOdd, hNames, v, v, next, T,
            w', hWorked, (hWorked.sound.put_self hWorked.mem).symm⟩)
          fun _ w' ⟨v', T, w₂, hWorked⟩ => ⟨v, v', next, T, w₂, hWorked⟩
    · obtain ⟨hOdd, hNames, v, v', next, T, w₂, hWorked, rfl⟩ := hFault
      refine .bind (P := fun _ w' => w' = w₂.put { v' with status := .compiled })
        (.modified (hFinish hWorked) rfl) fun _ w₄ hw₄ => .throw ?_
      subst hw₄
      exact ⟨hOdd, hNames, hWorked.sound_put nofun, hWorked.moves_put hSound⟩
    · obtain ⟨v, v', next, T, w₂, hWorked, hOwns, rfl⟩ := h₃
      exact .modified (hFinish hWorked) ⟨hWorked.advances hSound hOwns, _,
        World.mem_put hWorked.mem hWorked.name, hWorked.compiles.finish.name, nofun⟩

theorem compileWith_spec {load : Load} {depth : Nat} (hLoad : load.Meets plain depth) :
    Compiles plain (depth + 1) (compileWith load) :=
  compileWith_eq_compileBy load ▸ compileBy_spec (Root.check_spec hLoad)

/-- How a type is to be loaded from the units, which may be asked for by any name. -/
def Loads (plain : Plain) (depth : Nat) (load : Name → Check (Option Symbol)) : Prop :=
  ∀ w name, Sound plain w → Flying w → w.pending ≤ depth →
    Leads (load name) w (Failing plain (· < w.store.next) w) fun found w' =>
      Advances plain w w' ∧ ∀ symbol, found = some symbol → symbol.Loaded plain w' name

theorem ask_spec {name : Name} {trigger : Option (Node Meta)} {loaders : List Loader}
    (hLoaders : ∀ l ∈ loaders, l.Bare plain)
    (hGiven : plain → ∀ l ∈ loaders, ∀ name symbol, l.known? name = some symbol →
      plain.given symbol) (hName : plain → name.Dotted) {F : Fault → World → Prop} :
    Leads (Check.ask name trigger loaders) w F fun found w' => w' = w ∧
      ∀ symbol, found = some symbol → symbol.Loaded plain w' name := by
  induction loaders with
  | nil => exact .pure ⟨rfl, by simp⟩
  | cons l rest ih =>
    rw [Check.ask]
    refine .bind (P := fun _ w' => w' = w) (.modified (fun s hs => hs) rfl) fun _ w₁ hw₁ => ?_
    subst hw₁
    split
    · rename_i symbol hKnown
      refine .pure ⟨rfl, fun other hOther => ?_⟩
      obtain rfl := Option.some.inj hOther
      obtain ⟨hNode, hForeign, hKeyed, hLoaded⟩ := hLoaders l List.mem_cons_self name symbol hKnown
      refine ⟨hNode, hKeyed, fun full id hEq => absurd hEq (hForeign full id), fun hp full hFull => ?_, fun hp => .inl ⟨hLoaded hp (hName hp).full,
        hGiven hp l List.mem_cons_self name symbol hKnown⟩⟩
      have hSame := Symbol.full?_of_loaded? (hLoaded hp (hName hp).full)
      exact Option.some.inj (hFull.symm.trans hSame) ▸ (hName hp).full
    · exact ih (fun l' hl' => hLoaders l' (List.mem_cons_of_mem _ hl'))
        fun hp l' hl' => hGiven hp l' (List.mem_cons_of_mem _ hl')

theorem loadListed_spec (hSound : Sound plain w) {name : Name} (hName : plain → name.Dotted)
    {trigger : Node Meta} {F : Fault → World → Prop} :
    Leads (Check.loadListed name trigger) w F fun found w' => w' = w ∧
      ∀ symbol, found = some symbol → symbol.Loaded plain w' name := by
  refine .get fun s hs => ?_
  have hConfig : s.config = w.config := congrArg World.config hs
  rw [hConfig]
  exact ask_spec hSound.loaders hSound.given hName

theorem orListed_meets {depth : Nat} {load : Name → Check (Option Symbol)}
    (hLoad : Loads plain depth load) : (orListed load).Meets plain depth := by
  intro w name trigger hSound hFlying hDepth hName
  refine (hLoad w name hSound hFlying hDepth).bind fun found w₁ ⟨hAdvances, hFound⟩ => ?_
  cases found with
  | some symbol => exact .pure ⟨hAdvances, hFound⟩
  | none =>
    exact (loadListed_spec hAdvances.sound hName).mono (fun _ _ => id)
      fun found w₂ ⟨hSame, hFound₂⟩ => ⟨hSame ▸ hAdvances, hFound₂⟩

theorem symbol?_loaded (hSound : Sound plain w) (hu : u ∈ w.units) {name : Name}
    (hName : u.name = name.full) {symbol : Symbol} (h : u.symbol? w.store = some symbol) :
    symbol.Loaded plain w name := by
  obtain ⟨d, hFound, rfl⟩ := Option.map_eq_some_iff.1 h
  obtain ⟨r, hRoot, hFind⟩ := Option.bind_eq_some_iff.1 hFound
  have hd : d ∈ w.store.tops := List.mem_of_find?_eq_some hFind
  have hOf : d.Of r := by simpa [Declared.Of] using List.find?_some hFind
  refine ⟨rfl, fun _ full hFull => ?_, fun full id hEq => ?_, fun hp full hFull => ?_,
    fun hp => .inr ⟨d, hd, rfl, u, hu, hName, r, hRoot, ?_⟩⟩
  · obtain rfl : d.name = full := Option.some.inj hFull
    obtain ⟨key, hKey, _⟩ := (hSound.tops d hd).found
    exact ⟨key, hKey⟩
  · obtain ⟨rfl, hOrigin⟩ := Symbol.type.inj hEq
    exact ⟨d, hd, Origin.declared.inj hOrigin, rfl⟩
  · obtain rfl : d.name = full := Option.some.inj hFull
    exact (hSound.tops d hd).dotted hp
  · exact (hSound.named hp u hu r hRoot d hd hOf).symm

theorem loadBy_loads {compile : SourceUnit → Check Unit} {depth : Nat}
    (hCompile : Compiles plain depth compile) : Loads plain depth (loadBy compile) := by
  intro w name hSound hFlying hDepth
  unfold loadBy
  refine .get fun s hs => ?_
  have hUnits : s.units = w.units := congrArg World.units hs
  split
  · exact .pure ⟨.refl hSound, by simp⟩
  · rename_i u hFind
    have hu : u ∈ w.units := hUnits ▸ List.mem_of_find?_eq_some hFind
    have hRest : Leads (do
        compile u
        let s ← get
        return (s.unit? name.full).bind fun u => u.symbol? s.store) w
        (Failing plain (· < w.store.next) w) fun found w' => Advances plain w w' ∧
          ∀ symbol, found = some symbol → symbol.Loaded plain w' name := by
      refine (hCompile hSound hFlying hu hDepth).bind fun _ w₁ ⟨hAdvances, _⟩ => ?_
      refine .get fun s₁ hs₁ => .pure ⟨hAdvances, fun symbol hSymbol => ?_⟩
      subst hs₁
      obtain ⟨x, hx, hOwn⟩ := Option.bind_eq_some_iff.1 hSymbol
      exact symbol?_loaded hAdvances.sound (List.mem_of_find?_eq_some hx)
        (by simpa using List.find?_some hx) hOwn
    simp only
    split
    · exact .bind (P := fun _ w' => w' = w) (.log rfl) fun _ w₁ hw₁ => hw₁ ▸ hRest
    · exact hRest

theorem load_loads (depth : Nat) : Loads plain depth (load depth) := by
  induction depth with
  | zero =>
    refine loadBy_loads fun {w u} hSound _ hu hDepth => ?_
    split
    · rename_i hPending
      -- There is no unit left to compile.
      have hMem : u ∈ w.units.filter (·.status = .pending) :=
        List.mem_filter.2 ⟨hu, by simpa using hPending⟩
      have := List.length_pos_of_mem hMem
      unfold World.pending at hDepth
      omega
    · rename_i hStatus
      exact .pure ⟨.refl hSound, u, hu, rfl, hStatus⟩
  | succ depth ih => exact loadBy_loads (compileWith_spec (orListed_meets ih))

theorem pending_le_length (w : World) : w.pending ≤ w.units.length := List.length_filter_le _ _

theorem compile_length_spec {compile : Nat → SourceUnit → Check Unit}
    (hCompile : ∀ depth, Compiles plain (depth + 1) (compile depth)) (hSound : Sound plain w)
    (hFlying : Flying w) (hu : u ∈ w.units) :
    Leads (do compile (← get).units.length u) w (Failing plain (· < w.store.next) w)
      fun _ w' => Advances plain w w' ∧ ∃ u' ∈ w'.units, u'.name = u.name ∧ u'.status ≠ .pending := by
  refine .get fun s hs => ?_
  have hUnits : s.units = w.units := congrArg World.units hs
  rw [hUnits]
  exact hCompile _ hSound hFlying hu (Nat.le_succ_of_le (pending_le_length w))

theorem load_length_spec {load : Nat → Name → Check (Option Symbol)}
    (hLoad : ∀ depth, Loads plain depth (load depth)) (hSound : Sound plain w) (hFlying : Flying w)
    (name : Name) :
    Leads (do load ((← get).units.length + 1) name) w (Failing plain (· < w.store.next) w)
      fun found w' =>
        Advances plain w w' ∧ ∀ symbol, found = some symbol → symbol.Loaded plain w' name := by
  refine .get fun s hs => ?_
  have hUnits : s.units = w.units := congrArg World.units hs
  rw [hUnits]
  exact hLoad _ w name hSound hFlying (Nat.le_succ_of_le (pending_le_length w))

theorem loadUnit_spec (hSound : Sound plain w) (hFlying : Flying w) (name : Name) :
    Leads (loadUnit name) w (Failing plain (· < w.store.next) w) fun found w' =>
      Advances plain w w' ∧ ∀ symbol, found = some symbol → symbol.Loaded plain w' name :=
  load_length_spec load_loads hSound hFlying name

end Compilation

end Assay
