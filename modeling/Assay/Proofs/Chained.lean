import Mathlib
import Assay.Proofs.Calls

/-! Checks of single sources. Whatever was checked and compiled before, and however loaders are
chained, the check of a source that can be read comes to an end without a fault, if namespaces are
words between dots. -/

namespace Assay

open Check (Leads ending)

/-- A link of a chain of loaders. -/
inductive Link where
  /-- The runtime library. -/
  | library
  /-- The classes and interfaces of the host platform. -/
  | host (classes interfaces : List Text)
  /-- The units of the compilation. -/
  | units

namespace Link

def load : Link → Load
  | .library => fun name trigger => Check.ask name (some trigger) [.library]
  | .host classes interfaces => fun name trigger =>
    Check.ask name (some trigger) [.host classes interfaces]
  | .units => fun name _ => Compilation.loadUnit name

/-- How a chain loads a type: by the first link that knows it. -/
def chain : List Link → Load
  | [] => fun _ _ => return none
  | l :: rest => fun name trigger => do
    match ← l.load name trigger with
    | some symbol => return some symbol
    | none => chain rest name trigger

end Link

/-- What may have happened to a table: a call of the compilation, or the check of a source that is
none of its units. -/
inductive Event where
  | call (c : Call)
  | check (links : List Link) (space path text : Text)

namespace Event

def run : Event → Check Unit
  | .call c => c.run
  | .check links space path text => do
    let s ← get
    let (files, result, next) := Root.read s.files space path text s.store.next
    set { s with files, store := { s.store with next } }
    match result with
    | .error _ => pure ()
    | .ok r =>
      let _ ← r.check (Link.chain links)

/-- The namespace of a source is empty or words between dots. -/
def Spaced : Event → Prop
  | .call c => c.Spaced
  | .check _ space _ _ => Text.Spaced space

def after (events : List Event) (s : State) : State :=
  events.foldl (fun s e => (ending e.run s).2) s

end Event

variable {p : Prop} {plain : Plain} {w w' : World}

theorem Moves.flying {K : Nat → Prop} {T : Root Meta → Prop} (h : Moves plain K T w w')
    (hFlying : Flying w) : Flying w' := by
  intro u hu hStatus
  obtain ⟨r, d, hRoot, hd, hId⟩ := hFlying u (h.mem_of_compiling hu hStatus) hStatus
  exact ⟨r, d, hRoot, h.prefix_tops.subset hd, hId⟩

namespace Link

theorem load_meets (l : Link) (depth : Nat) : l.load.Meets (.of p) depth := by
  have hAsk {l : Loader} (hl : l.Standard) :
      Load.Meets (.of p) depth fun name trigger => Check.ask name (some trigger) [l] := by
    intro w name trigger hSound _ _ hName
    have hBare : ∀ l' ∈ [l], l'.Bare p := by simpa using hl.bare
    refine (Compilation.ask_spec hBare (fun _ _ _ _ _ _ => trivial) hName).mono (fun _ _ => id)
      fun found w' ⟨hSame, hFound⟩ => ?_
    subst hSame
    exact ⟨.refl hSound, hFound⟩
  cases l with
  | library => exact hAsk trivial
  | host classes interfaces => exact hAsk trivial
  | units =>
    intro w name trigger hSound hFlying _ _
    exact Compilation.loadUnit_spec hSound hFlying name

theorem chain_meets (links : List Link) (depth : Nat) : (chain links).Meets (.of p) depth := by
  induction links with
  | nil =>
    intro w name trigger hSound _ _ _
    exact .pure ⟨.refl hSound, by simp⟩
  | cons l rest ih =>
    intro w name trigger hSound hFlying hDepth hName
    refine (load_meets l depth w name trigger hSound hFlying hDepth hName).bind
      fun found w₁ ⟨hAdvances₁, hFound⟩ => ?_
    cases found with
    | some symbol => exact .pure ⟨hAdvances₁, hFound⟩
    | none =>
      have hMoves₁ := hAdvances₁.moves
      refine (ih w₁ name trigger hAdvances₁.sound (hMoves₁.flying hFlying)
        (hMoves₁.pending_le.trans hDepth) hName).mono (fun f w₂ hFail => ?_)
        fun found w₂ ⟨hAdvances₂, hFound₂⟩ => ⟨hAdvances₁.trans hAdvances₂, hFound₂⟩
      exact ⟨hFail.odd, hFail.ofNames, hFail.sound, hMoves₁.trans
        (hFail.moves.mono (fun _ hId => Nat.lt_of_lt_of_le hId hMoves₁.next) fun _ => id)⟩

end Link

theorem Settled.check {s : State} (h : Settled (.of p) s.world) {space path text : Text}
    (hSpaced : p → Text.Spaced space) {files : Files} {r : Root Meta} {next : Nat}
    (hRead : Root.read s.files space path text s.store.next = (files, .ok r, next))
    (links : List Link) :
    Leads (r.check (Link.chain links))
      ({ s with files, store := { s.store with next } } : State).world
      (fun _ w' => ¬p ∧ Settled (.of p) w') fun _ w' => Settled (.of p) w' := by
  obtain ⟨_, hNext, hOk⟩ := Root.read_spec hRead
  obtain ⟨hSpace, hSpan, hWorded⟩ := hOk r rfl
  have hSound : Sound (.of p) ({ s with files, store := { s.store with next } } : State).world :=
    (h.sound.grow hNext).setFiles _
  have hSettled : Settled (.of p) ({ s with files, store := { s.store with next } } : State).world :=
    ⟨hSound, h.idle⟩
  have hChecking := Checking.of_read (r := r) hSound hSpan hWorded (fun hp => hSpace ▸ hSpaced hp)
    (fun d hd => ⟨(h.sound.tops d hd).id, (h.sound.tops d hd).top.self⟩) h.sound.logged
    (fun u hu hStatus => absurd hStatus (h.idle u hu))
    fun u hu r' hr' => .inr
      ((h.sound.roots u hu r' hr').child (k := .top r'.top) (by simp [Node.children])).self
  exact (Root.check_spec (Link.chain_meets links _) (Nat.le_refl _) hChecking).mono
    (fun _ _ hFail => ⟨hFail.odd, hSettled.of_moves hFail.sound hFail.moves⟩)
    fun _ _ hEnd => hSettled.of_moves hEnd.checking.sound hEnd.checking.moves

namespace Event

theorem settled (e : Event) (hSpaced : p → e.Spaced) {s : State} (h : Settled (.of p) s.world) :
    Settled (.of p) (ending e.run s).2.world := by
  cases e with
  | call c => exact (c.comes hSpaced h).settled
  | check links space path text =>
    have hLeads : Leads (run (.check links space path text)) s.world
        (fun _ => Settled (.of p)) fun _ => Settled (.of p) := by
      refine .get fun s₁ hs₁ => ?_
      have h₁ : Settled (.of p) s₁.world := hs₁.symm ▸ h
      cases hRead : Root.read s₁.files space path text s₁.store.next with
      | mk files rest =>
        obtain ⟨result, next⟩ := rest
        refine .bind (.set (Q := fun _ w' => w' = _) rfl) fun _ w₂ hw₂ => ?_
        subst hw₂
        cases result with
        | error message =>
          have hNext := (Root.read_spec hRead).2.1
          exact .pure ⟨(h₁.sound.grow hNext).setFiles _, h₁.idle⟩
        | ok r =>
          exact ((h₁.check hSpaced hRead links).mono (fun _ _ hStop => hStop.2) fun _ _ => id).bind
            fun _ _ hEnd => .pure hEnd
    exact hLeads.ending_world rfl

theorem after_settled {events : List Event} (hSpaced : p → ∀ e ∈ events, e.Spaced) {s : State}
    (h : Settled (.of p) s.world) : Settled (.of p) (after events s).world := by
  induction events generalizing s with
  | nil => exact h
  | cons e rest ih =>
    exact ih (fun hp x hx => hSpaced hp x (List.mem_cons_of_mem _ hx))
      (settled e (fun hp => hSpaced hp e List.mem_cons_self) h)

end Event

/-- After any events, with any chain of loaders, the check of a source that can be read gives a tree
and what is wrong with it. So no recursion runs out, every scope and relative that is looked for is
there, and no node is of a kind that cannot be. -/
theorem check_ends_without_fault {config : Config} (hLoaders : ∀ l ∈ config.loaders, l.Standard)
    {events : List Event} (hEvents : ∀ e ∈ events, e.Spaced) {s : State}
    (hs : s = Event.after events (.start config)) {space path text : Text}
    (hSpaced : Text.Spaced space) {files : Files} {r : Root Meta} {next : Nat}
    (hRead : Root.read s.files space path text s.store.next = (files, .ok r, next))
    (links : List Link) :
    ∃ checked s', ending (r.check (Link.chain links))
      { s with files, store := { s.store with next } } = (.ok checked, s') := by
  have hSettled : Settled (.of True) s.world := by
    rw [hs]
    exact Event.after_settled (fun _ => hEvents)
      (.start (fun l hl => (hLoaders l hl).bare) fun _ _ _ _ _ _ => trivial)
  have hEnds := hSettled.check (fun _ => hSpaced) hRead links _ rfl
  cases hEnd : ending (r.check (Link.chain links))
      { s with files, store := { s.store with next } } with
  | mk result s' =>
    rw [hEnd] at hEnds
    cases result with
    | ok checked => exact ⟨checked, s', rfl⟩
    | error f => exact absurd trivial hEnds.1

/-- A class is checked that names a unit and a class that an earlier check has declared, both of which
name it. -/
theorem check_ends_without_fault_in_cycle :
    let s := Event.after [.call (.add "p.B" "p" "B.th" "class B { val a: A }"),
      .check [.units, .library] "p" "C.th" "class C { val a: A }"] (.start .default)
    ∃ files r next checked s',
      Root.read s.files "p" "A.th" "class A { m(b: B): C { val c = m(b); c } }" s.store.next =
        (files, .ok r, next) ∧
      ending (r.check (Link.chain [.units, .host ["java.util.List"] [], .library]))
        { s with files, store := { s.store with next } } = (.ok checked, s') := by
  intro s
  have hLoaders : ∀ l ∈ Config.default.loaders, l.Standard := by
    rintro l (_ | ⟨_, ⟨⟩⟩)
    trivial
  have hSpaced : Text.Spaced "p" := .inr (by decide +kernel)
  have hEvents : ∀ e ∈ [Event.call (.add "p.B" "p" "B.th" "class B { val a: A }"),
      .check [.units, .library] "p" "C.th" "class C { val a: A }"], e.Spaced := by
    rintro e (_ | ⟨_, _ | ⟨_, ⟨⟩⟩⟩)
    · exact hSpaced
    · exact hSpaced
  cases hRead : Root.read s.files "p" "A.th" "class A { m(b: B): C { val c = m(b); c } }"
      s.store.next with
  | mk files rest =>
    obtain ⟨_ | r, next⟩ := rest
    · have hOk : (Root.read s.files "p" "A.th" "class A { m(b: B): C { val c = m(b); c } }"
          s.store.next).2.1.isOk = true := by
        decide +kernel
      rw [hRead] at hOk
      exact nomatch hOk
    · obtain ⟨checked, s', hEnd⟩ := check_ends_without_fault hLoaders hEvents rfl hSpaced
        hRead [.units, .host ["java.util.List"] [], .library]
      exact ⟨files, r, next, checked, s', rfl, hEnd⟩

end Assay
