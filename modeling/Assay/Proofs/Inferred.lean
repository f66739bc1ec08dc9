import Mathlib
import Assay.Proofs.Course
import Assay.Proofs.Named

/-! Inference types nodes of its own source only, but for a type that an assignment stands for, and it
never recurses deeper than there are declarations: the ones that are being typed are all distinct. -/

namespace Assay

variable {n : Node Meta} {i : Nat} {ref : Reference Meta} {g : Progress} {symbol : Symbol}
  {w' : World} {role : Node.Role} {ns : List (Node Meta)}

/-- What inference leaves as it is between two worlds: the table, declarations and units stay, and the
record of what references stand for grows. -/
structure Ahead (w w' : World) : Prop where
  table : w'.store.table = w.store.table
  log : w.store.refs <:+ w'.store.refs
  tops : w'.store.tops = w.store.tops
  units : w'.units = w.units

namespace Ahead

theorem refl (w : World) : Ahead w w := ⟨rfl, List.suffix_refl _, rfl, rfl⟩

theorem trans {w w'' : World} (h : Ahead w w') (h' : Ahead w' w'') : Ahead w w'' :=
  ⟨h'.table.trans h.table, h.log.trans h'.log, h'.tops.trans h.tops, h'.units.trans h.units⟩

theorem assigns {w : World} (h : Ahead w w') {K : Nat → Prop} {T : Root Meta → Prop} {id : Nat}
    (hAssigns : w.Assigns K T id) : w'.Assigns K T id :=
  hAssigns.keep (fun _ hu _ => h.units ▸ hu) (h.tops ▸ List.prefix_refl _) h.log

end Ahead

namespace Infer

variable {α β : Type}

/-- A step of inference, started in a world that satisfies `I` while the declarations `vis` are being
typed, keeps both, and its result satisfies `Q`. -/
def Keeps (I : World → Prop) (F : Fault → World → Prop) (vis : List Nat) (m : Infer α)
    (Q : α → World → Prop) : Prop :=
  ∀ g w, g.visiting = vis → I w → Check.Leads (m.run g) w F fun p w' =>
    p.2.visiting = vis ∧ I w' ∧ Ahead w w' ∧ Q p.1 w'

namespace Keeps

variable {I : World → Prop} {F : Fault → World → Prop} {vis : List Nat}

theorem pure {a : α} {Q : α → World → Prop} (h : ∀ w, I w → Q a w) :
    Keeps I F vis (Pure.pure a) Q :=
  fun _ w hg hw => .pure ⟨hg, hw, .refl w, h w hw⟩

theorem bind {m : Infer α} {k : α → Infer β} {P : α → World → Prop} {Q : β → World → Prop}
    (hm : Keeps I F vis m P) (hk : ∀ a w, I w → P a w → ∀ g, g.visiting = vis →
      Check.Leads ((k a).run g) w F fun p w' => p.2.visiting = vis ∧ I w' ∧ Ahead w w' ∧ Q p.1 w') :
    Keeps I F vis (m >>= k) Q := by
  intro g w hg hw
  rw [StateT.run_bind]
  refine (hm g w hg hw).bind fun p w₁ ⟨hVis, hI, hAhead, hP⟩ => ?_
  exact (hk p.1 w₁ hI hP p.2 hVis).mono (fun _ _ => id) fun p' w₂ ⟨hVis', hI', hAhead', hQ⟩ =>
    ⟨hVis', hI', hAhead.trans hAhead', hQ⟩

theorem seq {m : Infer α} {k : α → Infer β} {P : α → Prop} {Q : β → World → Prop}
    (hm : Keeps I F vis m fun a _ => P a) (hk : ∀ a, P a → Keeps I F vis (k a) Q) :
    Keeps I F vis (m >>= k) Q :=
  hm.bind fun a w hw ha g hg => hk a ha g w hg hw

theorem mono {m : Infer α} {P Q : α → World → Prop} (hm : Keeps I F vis m P)
    (h : ∀ a w, I w → P a w → Q a w) : Keeps I F vis m Q :=
  fun g w hg hw => (hm g w hg hw).mono (fun _ _ => id) fun p w' ⟨hVis, hI, hAhead, hP⟩ =>
    ⟨hVis, hI, hAhead, h p.1 w' hI hP⟩

theorem lift {m : Check α} {Q : α → World → Prop}
    (h : ∀ w, I w → Check.Leads m w F fun a w' => I w' ∧ Ahead w w' ∧ Q a w') :
    Keeps I F vis (liftM m) Q := by
  intro g w hg hw
  exact (leads_lift (h w hw)).mono (fun _ _ => id) fun _ _ ⟨hSame, hQ⟩ => ⟨hSame ▸ hg, hQ⟩

theorem modify {f : Progress → Progress} (hf : ∀ g, (f g).visiting = g.visiting) :
    Keeps I F vis (modify f) fun _ _ => True :=
  fun g w hg hw => .pure ⟨(hf g).trans hg, hw, .refl w, trivial⟩

end Keeps

/-- What holds while a source is typed: what references stand for are nodes that declare something,
with numbers below the bound. -/
structure Typing (plain : Plain) (K : Nat → Prop) (b : World) (r : Root Meta) (first bound : Nat)
    (w : World) : Prop where
  underway : Underway plain K (· = r) b r first w
  known : ∀ {i symbols}, (i, symbols) ∈ w.store.refs → ∀ symbol ∈ symbols, ∀ n,
    w.store.decl? symbol = some n → n.Declares ∧ n.Below bound

/-- A node of the source that is typed. -/
structure Own (plain : Plain) (K : Nat → Prop) (r : Root Meta) (bound : Nat) (n : Node Meta) :
    Prop where
  below : n.Below bound
  clear : plain → n.Clear K
  refers : plain → n.referrals ⊆ (Node.root r).referrals

/-- A node that declares what a source refers to: a type, or a node of the source. -/
structure Typeable (plain : Plain) (K : Nat → Prop) (r : Root Meta) (bound : Nat) (n : Node Meta) :
    Prop where
  declares : n.Declares
  below : n.Below bound
  own : plain → n.IsType ∨ n.Clear K ∧ n.referrals ⊆ (Node.root r).referrals

section Steps

variable {plain : Plain} {K : Nat → Prop} {b : World} {r : Root Meta} {first bound : Nat}
  {vis : List Nat}

theorem Own.child {k : Node Meta} (h : Own plain K r bound n) (hk : k ∈ n.children) :
    Own plain K r bound k where
  below := h.below.child hk
  clear hp := (h.clear hp).child hk
  refers hp x hx := h.refers hp (by
    rw [Node.referrals_eq]
    exact List.mem_append_right _ (List.mem_flatMap.2 ⟨k, hk, hx⟩))

theorem Own.typeable (h : Own plain K r bound n) (hDeclares : n.Declares) :
    Typeable plain K r bound n :=
  ⟨hDeclares, h.below, fun hp => .inr ⟨h.clear hp, h.refers hp⟩⟩

theorem Own.mem (h : Own plain K r bound n) (hp : plain) (hRole : (i, role) ∈ n.refers) :
    (i, role) ∈ (Node.root r).referrals :=
  h.refers hp (by
    rw [Node.referrals_eq]
    exact List.mem_append_left _ hRole)

theorem Typing.mono {w : World} (h : Typing plain K b r first bound w) (hAhead : Ahead w w')
    (hUnderway : Underway plain K (· = r) b r first w') (hLog : ∀ {i symbols}, (i, symbols) ∈
      w'.store.refs → ∀ symbol ∈ symbols, ∃ j others, (j, others) ∈ w.store.refs ∧ symbol ∈ others) :
    Typing plain K b r first bound w' where
  underway := hUnderway
  known hMem symbol hs n hn := by
    obtain ⟨j, others, hOld, hIn⟩ := hLog hMem symbol hs
    refine h.known hOld symbol hIn n ?_
    rw [← hn]
    cases symbol with
    | type name origin =>
      cases origin with
      | declared top => simp only [Store.decl?, Store.top?, hAhead.tops]
      | _ => rfl
    | _ => rfl

theorem Typing.fresh (m : Fresh α) (hm : ∀ k, k ≤ (m k).2) :
    Keeps (Typing plain K b r first bound) (Failing plain K b) vis (liftM (Check.fresh m))
      fun _ _ => True :=
  .lift fun _ hw => .fresh ⟨hw.mono ⟨rfl, List.suffix_refl _, rfl, rfl⟩ (hw.underway.grow (hm _))
    fun hMem _ hs => ⟨_, _, hMem, hs⟩, ⟨rfl, List.suffix_refl _, rfl, rfl⟩, trivial⟩

theorem report_keeps (p : Problem) (n : Node Meta) :
    Keeps (Typing plain K b r first bound) (Failing plain K b) vis (report p n)
      fun _ _ => True :=
  .modify fun g => by
    split <;> rfl

theorem simple_keeps (name : Text) :
    Keeps (Typing plain K b r first bound) (Failing plain K b) vis (simple name)
      fun _ _ => True :=
  (Typing.fresh newMeta fun k => Nat.le_succ k).seq fun _ _ => .pure fun _ _ => trivial

theorem library_keeps (name : Text) :
    Keeps (Typing plain K b r first bound) (Failing plain K b) vis (some <$> library name)
      fun _ _ => True := by
  rw [map_eq_pure_bind]
  exact (simple_keeps _).seq fun _ _ => .pure fun _ _ => trivial

theorem typeOf_keeps (i : Nat) :
    Keeps (Typing plain K b r first bound) (Failing plain K b) vis (typeOf i)
      fun t w => t = w.store.typeOf? i := by
  refine Keeps.bind (P := fun st w => st = w.store) (.lift fun w hw => .store ⟨hw, .refl w, rfl⟩)
    fun st w hw hst g hg => ?_
  subst hst
  exact .pure ⟨hg, hw, .refl w, rfl⟩

/-- The step of a node that gets a type, which is a node of the source, or one that an assignment
stands for, or that has that type already. -/
theorem setType_leads {t : Option Spec} {w : World} (hg : g.visiting = vis)
    (hw : Typing plain K b r first bound w)
    (hType : plain → K i → ∀ s, t = some s → w.store.typeOf? i = some s ∨ w.Assigns K (· = r) i) :
    Check.Leads ((setType i t).run g) w (Failing plain K b) fun p w' =>
      p.2.visiting = vis ∧ Typing plain K b r first bound w' ∧ Ahead w w' ∧ True := by
  cases t with
  | none => exact .pure ⟨hg, hw, .refl w, trivial⟩
  | some s =>
    have hAhead : Ahead w { w with store := w.store.setType i s } :=
      ⟨rfl, List.suffix_refl _, rfl, rfl⟩
    have hTyping : Typing plain K b r first bound { w with store := w.store.setType i s } :=
      hw.mono hAhead (hw.underway.setType fun hp hi => hType hp hi s rfl)
        fun hMem _ hs => ⟨_, _, hMem, hs⟩
    exact (leads_lift (.modifyStore (Q := fun _ w' => Typing plain K b r first bound w' ∧ Ahead w w')
      ⟨hTyping, hAhead⟩)).mono (fun _ _ => id)
      fun _ _ ⟨hSame, hw', hAhead'⟩ => ⟨hSame ▸ hg, hw', hAhead', trivial⟩

theorem setType_keeps (t : Option Spec) (hi : plain → ¬K i) :
    Keeps (Typing plain K b r first bound) (Failing plain K b) vis (setType i t)
      fun _ _ => True :=
  fun _ _ hg hw => setType_leads hg hw fun hp h => absurd h (hi hp)

theorem needed_keeps (n : Node Meta) (t : Option Spec) :
    Keeps (Typing plain K b r first bound) (Failing plain K b) vis (needed n t)
      fun _ _ => True := by
  unfold needed
  split
  · exact (report_keeps _ _).seq fun _ _ => .pure fun _ _ => trivial
  · exact .pure fun _ _ => trivial

theorem inter_keeps (types : List Spec) :
    Keeps (Typing plain K b r first bound) (Failing plain K b) vis (inter types)
      fun _ _ => True :=
  Typing.fresh _ fun k => (inter_gives types k).1

theorem node?_of_decl? {st : Store} (h : st.decl? symbol = some n) :
    symbol.node? = some n ∨ n.IsType ∧ n.arity? = none := by
  cases symbol with
  | type name origin =>
    cases origin with
    | declared i =>
      obtain ⟨d, _, rfl⟩ := Option.map_eq_some_iff.1 h
      exact .inr ⟨trivial, rfl⟩
    | «variable» p => exact .inl h
    | unknown => exact nomatch h
  | named | «alias» => exact .inl h
  | _ => exact nomatch h

theorem Typing.typeable {w : World} (h : Typing plain K b r first bound w) {symbols : List Symbol}
    (hRole : plain → (i, role) ∈ (Node.root r).referrals) (hRefs : w.store.refsOf? i = some symbols)
    (hs : symbol ∈ symbols) (hn : w.store.decl? symbol = some n) : Typeable plain K r bound n := by
  obtain ⟨hDeclares, hBelow⟩ := h.known (Store.refsOf?_mem hRefs) symbol hs n hn
  refine ⟨hDeclares, hBelow, fun hp => ?_⟩
  obtain hNode | ⟨hType, _⟩ := node?_of_decl? hn
  · exact (h.underway.meant hp (hRole hp) hRefs symbol hs n hNode).1
  · exact .inl hType

theorem target_keeps (hRole : plain → (ref.ann.id, role) ∈ (Node.root r).referrals) :
    Keeps (Typing plain K b r first bound) (Failing plain K b) vis (target ref) fun found w =>
      ∀ n, found = some n → Typeable plain K r bound n ∧
        ∃ symbol, w.store.refsOf? ref.ann.id = some [symbol] ∧ w.store.decl? symbol = some n := by
  refine Keeps.bind (P := fun st w => st = w.store) (.lift fun w hw => .store ⟨hw, .refl w, rfl⟩)
    fun st w hw hst g hg => ?_
  subst hst
  split
  · rename_i symbol hRefs
    refine .pure ⟨hg, hw, .refl w, fun n hn => ⟨?_, symbol, hRefs, hn⟩⟩
    exact hw.typeable hRole hRefs (List.mem_singleton_self _) hn
  · exact .pure ⟨hg, hw, .refl w, fun _ h => nomatch h⟩

theorem callee_keeps {args : List (Option Spec)}
    (hRole : plain → (ref.ann.id, .call args.length) ∈ (Node.root r).referrals)
    (hClear : plain → ¬K ref.ann.id) :
    Keeps (Typing plain K b r first bound) (Failing plain K b) vis (callee ref args)
      fun found _ => ∀ n, found = some n → Typeable plain K r bound n := by
  refine Keeps.bind (P := fun st w => st = w.store) (.lift fun w hw => .store ⟨hw, .refl w, rfl⟩)
    fun st w hw hst g hg => ?_
  subst hst
  split
  · exact .pure ⟨hg, hw, .refl w, by simp⟩
  · rename_i symbols hRefs
    have hMatching : Ends (Failing plain K b · w)
        (fun found => ∀ c ∈ found, c ∈ Candidate.ofSymbols w.store symbols)
        (Candidate.matching args (Candidate.ofSymbols w.store symbols)) := by
      refine (matching_spec fun c hc hNe => ?_).mono fun found h c hc => (h c hc).1
      obtain ⟨hs, hDecl, text, hArity⟩ := mem_ofSymbols hc
      -- Where names are words, a candidate was found under the number of its parameters.
      have hOdd : ¬plain := fun hp => by
        obtain hNode | ⟨_, hNone⟩ := node?_of_decl? hDecl
        · exact hNe ((hw.underway.meant hp (hRole hp) hRefs _ hs _ hNode).2 _ _ _ rfl hArity)
        · simp [hArity] at hNone
      exact ⟨hOdd, ⟨Fault.noConfusion, Fault.noConfusion⟩, hw.underway.sound, hw.underway.moves.vacuous hOdd⟩
    have hFound : Check.Leads (Check.orFault _) w (Failing plain K b) fun found w' =>
        w' = w ∧ ∀ c ∈ found, c ∈ Candidate.ofSymbols w.store symbols :=
      .orFault (hMatching.mono fun _ h => ⟨rfl, h⟩)
    rw [StateT.run_bind]
    refine (leads_lift hFound).bind ?_
    rintro ⟨found, g₁⟩ w₁ ⟨hSame, hw₁, hFound⟩
    subst hw₁ hSame
    have hReport (problem : Problem) : Keeps (Typing plain K b r first bound) (Failing plain K b)
        vis (do report problem (.reference ref); return none) fun found _ =>
          ∀ n, found = some n → Typeable plain K r bound n :=
      (report_keeps _ _).seq fun _ _ => .pure (by simp)
    obtain _ | ⟨one, _ | ⟨other, rest⟩⟩ := found
    · exact hReport _ g₁ w₁ hg hw
    · obtain ⟨hs, hDecl, _⟩ := mem_ofSymbols (hFound one (List.mem_singleton_self _))
      have hTypeable := hw.typeable hRole hRefs hs hDecl
      have hAfter : Ahead w₁ { w₁ with store := w₁.store.setRefs ref.ann.id [one.symbol] } :=
        ⟨rfl, List.suffix_cons _ _, rfl, rfl⟩
      have hTyping : Typing plain K b r first bound
          { w₁ with store := w₁.store.setRefs ref.ann.id [one.symbol] } := by
        refine hw.mono hAfter (hw.underway.setRefs
          (hw.underway.sound.logged (Store.refsOf?_mem hRefs)) ?_ hClear fun hp role hMem => ?_)
          fun {i others} hMem symbol hIn => ?_
        · exact List.forall_mem_singleton.2 fun n => hw.underway.sound.refs (Store.refsOf?_mem hRefs) _ hs n
        · exact List.forall_mem_singleton.2 (hw.underway.meant hp hMem hRefs _ hs)
        · obtain hNew | hOld := List.mem_cons.1 hMem
          · obtain ⟨rfl, rfl⟩ := Prod.mk.inj hNew
            exact ⟨_, _, Store.refsOf?_mem hRefs, List.mem_singleton.1 hIn ▸ hs⟩
          · exact ⟨_, _, hOld, hIn⟩
      rw [StateT.run_bind]
      refine (leads_lift (.modifyStore (Q := fun _ w' => Typing plain K b r first bound w' ∧
        Ahead w₁ w') ⟨hTyping, hAfter⟩)).bind ?_
      rintro p w₂ ⟨hSame, hw₂, hAhead⟩
      rw [StateT.run_bind]
      refine (leads_lift (.log (Q := fun _ w' => w' = w₂) rfl)).bind ?_
      rintro p' w₃ ⟨hSame', rfl⟩
      refine .pure ⟨?_, hw₂, hAhead, fun n hn => Option.some.inj hn ▸ hTypeable⟩
      rw [hSame', hSame]
      exact hg
    · exact hReport _ g₁ w₁ hg hw

section Values

variable {decl : Node Meta → Infer (Option Spec)}

/-- How a declaration is typed while others are being typed. -/
def Types (plain : Plain) (K : Nat → Prop) (b : World) (r : Root Meta) (first bound : Nat)
    (vis : List Nat) (decl : Node Meta → Infer (Option Spec)) : Prop :=
  ∀ n, Typeable plain K r bound n →
    Keeps (Typing plain K b r first bound) (Failing plain K b) vis (decl n) fun _ _ => True

theorem params_keeps (hDecl : Types plain K b r first bound vis decl) {ps : List (Param Meta)}
    (hps : ∀ p ∈ ps, Own plain K r bound (.param p)) :
    Keeps (Typing plain K b r first bound) (Failing plain K b) vis (params decl ps)
      fun _ _ => True := by
  induction ps with
  | nil => exact .pure fun _ _ => trivial
  | cons p rest ih =>
    rw [params]
    refine (hDecl _ ((hps p List.mem_cons_self).typeable trivial)).seq fun _ _ => ?_
    exact ih fun q hq => hps q (List.mem_cons_of_mem _ hq)

theorem reference_keeps (hDecl : Types plain K b r first bound vis decl)
    (hRef : Own plain K r bound (.reference ref)) {n : Option (Node Meta)}
    (hn : ∀ k, n = some k → Typeable plain K r bound k) :
    Keeps (Typing plain K b r first bound) (Failing plain K b) vis (reference decl ref n)
      fun _ _ => True := by
  cases n with
  | none => exact .pure fun _ _ => trivial
  | some k =>
    refine (hDecl k (hn k rfl)).seq fun t _ => ?_
    exact (setType_keeps t fun hp => (hRef.clear hp).self).seq fun _ _ => .pure fun _ _ => trivial

theorem widen_leads (hDecl : Types plain K b r first bound vis decl)
    (hn : Typeable plain K r bound n) (t : Spec) {w : World} (hg : g.visiting = vis)
    (hw : Typing plain K b r first bound w)
    (hAssigns : plain → K n.ann.id → w.Assigns K (· = r) n.ann.id) :
    Check.Leads ((widen decl n t).run g) w (Failing plain K b) fun p w' =>
      p.2.visiting = vis ∧ Typing plain K b r first bound w' ∧ Ahead w w' ∧ True := by
  unfold widen
  rw [StateT.run_bind]
  refine (hDecl n hn g w hg hw).bind fun p w₁ ⟨hg₁, hw₁, hAhead₁, _⟩ => ?_
  obtain ⟨old, g₁⟩ := p
  cases old with
  | none => exact .pure ⟨hg₁, hw₁, hAhead₁, trivial⟩
  | some old =>
    simp only
    rw [StateT.run_bind]
    refine (inter_keeps _ g₁ w₁ hg₁ hw₁).bind fun p w₂ ⟨hg₂, hw₂, hAhead₂, _⟩ => ?_
    have hAhead := hAhead₁.trans hAhead₂
    refine (setType_leads hg₂ hw₂ fun hp hi _ _ => .inr (hAhead.assigns (hAssigns hp hi))).mono
      (fun _ _ => id) fun _ _ ⟨hVis, hI, hAhead₃, _⟩ => ⟨hVis, hI, hAhead.trans hAhead₃, trivial⟩

/-- The node that the reference of an assignment stands for is one of the source, or an assignment
of the source stands for it. -/
theorem assigns_of_target {w : World} (hRole : (ref.ann.id, .assignment) ∈ (Node.root r).referrals)
    (hRefs : w.store.refsOf? ref.ann.id = some [symbol]) (hDecl : w.store.decl? symbol = some n)
    (hn : n.IsType ∨ n.Clear K ∧ n.referrals ⊆ (Node.root r).referrals) (hId : K n.ann.id) :
    w.Assigns K (· = r) n.ann.id := by
  obtain ⟨k, hk, hRefers⟩ := List.mem_flatMap.1 hRole
  obtain ⟨m, ref', v, rfl, hSame⟩ : ∃ m ref' v, k = .value (.assign m ref' v) ∧
      ref'.ann.id = ref.ann.id := by
    cases k with
    | value v => cases v <;> simp_all [Node.refers]
    | _ => simp [Node.refers] at hRefers
  refine ⟨r, .inl rfl, m, ref', v, hk, symbol, n, hSame ▸ Store.refsOf?_mem hRefs, hDecl, ?_, rfl⟩
  exact hn.resolve_right fun hOwn => hOwn.1.self hId

theorem note_keeps (hn : Own plain K r bound n) (t : Option Spec) :
    Keeps (Typing plain K b r first bound) (Failing plain K b) vis
      (do setType n.ann.id t; return t) fun _ _ => True :=
  (setType_keeps t fun hp => (hn.clear hp).self).seq fun _ _ => .pure fun _ _ => trivial

theorem assign_leads (hDecl : Types plain K b r first bound vis decl) {m : Meta} {v : Value Meta}
    (hv : Own plain K r bound (.value (.assign m ref v))) (t : Spec) {w : World}
    (hg : g.visiting = vis) (hw : Typing plain K b r first bound w)
    (hn : Typeable plain K r bound n) (hRefs : w.store.refsOf? ref.ann.id = some [symbol])
    (hSymbol : w.store.decl? symbol = some n) :
    Check.Leads ((do widen decl n t; setType m.id (some t); return some t).run g) w
      (Failing plain K b) fun p w' =>
        p.2.visiting = vis ∧ Typing plain K b r first bound w' ∧ Ahead w w' ∧ True := by
  rw [StateT.run_bind]
  refine (widen_leads hDecl hn t hg hw fun hp hId => ?_).bind
    fun p w₁ ⟨hg₁, hw₁, hAhead₁, _⟩ => ?_
  · exact assigns_of_target (hv.mem hp (List.mem_singleton_self _)) hRefs hSymbol (hn.own hp) hId
  · exact (note_keeps hv (some t) p.2 w₁ hg₁ hw₁).mono (fun _ _ => id)
      fun _ _ ⟨hVis, hI, hAhead, _⟩ => ⟨hVis, hI, hAhead₁.trans hAhead, trivial⟩

mutual

theorem value_keeps (hDecl : Types plain K b r first bound vis decl) : (v : Value Meta) →
    Own plain K r bound (.value v) →
      Keeps (Typing plain K b r first bound) (Failing plain K b) vis (value decl v)
        fun _ _ => True
  | .string m text, hv => by
    rw [value]
    exact (library_keeps _).seq fun t _ => note_keeps hv t
  | .number m digits, hv => by
    rw [value]
    exact (library_keeps _).seq fun t _ => note_keeps hv t
  | .boolean m truth, hv => by
    rw [value]
    exact (library_keeps _).seq fun t _ => note_keeps hv t
  | .nothing m, hv => by
    rw [value]
    exact (library_keeps _).seq fun t _ => note_keeps hv t
  | .ident m ref, hv => by
    have hRef : Own plain K r bound (.reference ref) := hv.child (by simp [Node.children])
    rw [value]
    refine (target_keeps fun hp => hv.mem hp (List.mem_singleton_self _)).bind
      fun n w hw hn g hg => ?_
    exact (reference_keeps hDecl hRef fun k hk => (hn k hk).1).seq (fun t _ => note_keeps hv t) g w
      hg hw
  | .bind m mode name s v, hv => by
    have hValue : Own plain K r bound (.value v) := hv.child (by simp [Node.children])
    rw [value]
    refine (value_keeps hDecl v hValue).seq fun t _ => (needed_keeps _ _).seq fun t' _ => ?_
    exact (Keeps.modify (by intro g; rfl)).seq fun _ _ =>
      Keeps.seq (P := fun _ => True) (.pure fun _ _ => trivial) fun t'' _ => note_keeps hv t''
  | .assign m ref v, hv => by
    have hValue : Own plain K r bound (.value v) := hv.child (by simp [Node.children])
    rw [value]
    refine (value_keeps hDecl v hValue).seq fun t _ => ?_
    refine (target_keeps fun hp => hv.mem hp (List.mem_singleton_self _)).bind
      fun n w hw hn g hg => ?_
    split
    · rename_i n t
      obtain ⟨hTypeable, symbol, hRefs, hSymbol⟩ := hn n rfl
      exact assign_leads hDecl hv t hg hw hTypeable hRefs hSymbol
    · exact note_keeps hv t g w hg hw
  | .assignMember m receiver ref v, hv => by
    rw [value]
    refine (value_keeps hDecl receiver (hv.child (by simp [Node.children]))).seq fun _ _ => ?_
    exact (value_keeps hDecl v (hv.child (by simp [Node.children]))).seq fun t _ => note_keeps hv t
  | .call m ref types args, hv => by
    have hRef : Own plain K r bound (.reference ref) := hv.child (by simp [Node.children])
    rw [value]
    refine (values_keeps hDecl args fun v hArg => hv.child (by simp [Node.children, hArg])).seq
      fun ts hts => ?_
    refine (callee_keeps (fun hp => hts ▸ hv.mem hp (List.mem_singleton_self _))
      fun hp => (hRef.clear hp).self).seq fun n hn => ?_
    exact (reference_keeps hDecl hRef hn).seq fun t _ => note_keeps hv t
  | .nested m outer inner, hv => by
    rw [value]
    refine (value_keeps hDecl outer (hv.child (by simp [Node.children]))).seq fun _ _ => ?_
    exact (value_keeps hDecl inner (hv.child (by simp [Node.children]))).seq
      fun t _ => note_keeps hv t
  | .function m typeParams ps result body, hv => by
    rw [value]
    refine (params_keeps hDecl fun p hp => hv.child (by simp [Node.children, hp])).seq fun _ _ => ?_
    refine (statements_keeps hDecl body fun s hs => hv.child (by simp [Node.children, hs])).seq
      fun _ _ => ?_
    exact (library_keeps _).seq fun t _ => note_keeps hv t

theorem values_keeps (hDecl : Types plain K b r first bound vis decl) : (vs : List (Value Meta)) →
    (∀ v ∈ vs, Own plain K r bound (.value v)) →
      Keeps (Typing plain K b r first bound) (Failing plain K b) vis (values decl vs)
        fun ts _ => ts.length = vs.length
  | [], _ => by
    rw [values]
    exact .pure fun _ _ => rfl
  | v :: rest, h => by
    rw [values]
    refine (value_keeps hDecl v (h v List.mem_cons_self)).seq fun t _ => ?_
    refine (values_keeps hDecl rest fun v' hv' => h v' (List.mem_cons_of_mem _ hv')).seq
      fun ts hts => ?_
    exact .pure fun _ _ => congrArg Nat.succ hts

theorem statements_keeps (hDecl : Types plain K b r first bound vis decl) :
    (ss : List (Statement Meta)) → (∀ s ∈ ss, Own plain K r bound (.statement s)) →
      Keeps (Typing plain K b r first bound) (Failing plain K b) vis (statements decl ss)
        fun _ _ => True
  | [], _ => by
    rw [statements]
    exact library_keeps _
  | s :: rest, h => by
    have hRest (lasts : List Spec) := statementsAfter_keeps hDecl lasts rest fun s' hs' =>
      h s' (List.mem_cons_of_mem _ hs')
    rw [statements]
    refine (statement_keeps hDecl s (h s List.mem_cons_self)).seq fun t _ => ?_
    split
    · cases t with
      | none => exact .pure fun _ _ => trivial
      | some t => exact hRest [t]
    · exact hRest []

theorem statementsAfter_keeps (hDecl : Types plain K b r first bound vis decl)
    (lasts : List Spec) : (ss : List (Statement Meta)) →
    (∀ s ∈ ss, Own plain K r bound (.statement s)) →
      Keeps (Typing plain K b r first bound) (Failing plain K b) vis
        (statementsAfter decl lasts ss) fun _ _ => True
  | [], _ => by
    rw [statementsAfter.eq_def]
    simp only
    split
    · exact .pure fun _ _ => trivial
    · rw [map_eq_pure_bind]
      exact (inter_keeps _).seq fun _ _ => .pure fun _ _ => trivial
  | s :: rest, h => by
    have hRest (lasts : List Spec) := statementsAfter_keeps hDecl lasts rest fun s' hs' =>
      h s' (List.mem_cons_of_mem _ hs')
    rw [statementsAfter]
    refine (statement_keeps hDecl s (h s List.mem_cons_self)).seq fun t _ => ?_
    split
    · cases t with
      | none => exact .pure fun _ _ => trivial
      | some t => exact hRest (lasts ++ [t])
    · exact hRest lasts

theorem statement_keeps (hDecl : Types plain K b r first bound vis decl) : (s : Statement Meta) →
    Own plain K r bound (.statement s) →
      Keeps (Typing plain K b r first bound) (Failing plain K b) vis (statement decl s)
        fun _ _ => True
  | ⟨m, v, last⟩, hs => by
    rw [statement]
    refine (value_keeps hDecl v (hs.child (by simp [Node.children]))).seq fun t _ => ?_
    exact note_keeps hs t

end

/-- Typing a declaration from its parts types nodes of the source. The node itself is not typed yet;
if it is to be left alone, it keeps its type. -/
theorem declaration_keeps (hDecl : Types plain K b r first bound vis decl)
    (hn : Typeable plain K r bound n) :
    Keeps (Typing plain K b r first bound) (Failing plain K b) vis (declaration decl n) fun t w =>
      plain → K n.ann.id → ∀ s, t = some s → w.store.typeOf? n.ann.id = some s := by
  have hOwn (hType : ¬n.IsType) : Own plain K r bound n :=
    ⟨hn.below, fun hp => ((hn.own hp).resolve_left hType).1,
      fun hp => ((hn.own hp).resolve_left hType).2⟩
  have hDone {m : Infer (Option Spec)} (hType : ¬n.IsType)
      (hm : Keeps (Typing plain K b r first bound) (Failing plain K b) vis m fun _ _ => True) :
      Keeps (Typing plain K b r first bound) (Failing plain K b) vis m fun t w =>
        plain → K n.ann.id → ∀ s, t = some s → w.store.typeOf? n.ann.id = some s :=
    hm.mono fun _ _ _ _ hp hId => absurd hId ((hOwn hType).clear hp).self
  have hDeclares := hn.declares
  cases n with
  | «attribute» a =>
    refine hDone id ?_
    simp only [declaration]
    split
    · rename_i v hValue
      refine (value_keeps hDecl v ((hOwn id).child (by simp [Node.children, hValue]))).seq
        fun t _ => needed_keeps _ _
    · exact Keeps.seq (P := fun _ => True) (.pure fun _ _ => trivial) fun t _ => needed_keeps _ _
  | param p => exact hDone id (needed_keeps _ _)
  | method m =>
    have hSign : Own plain K r bound (.signature m.signature) :=
      (hOwn id).child (by simp [Node.children])
    refine hDone id ?_
    rw [declaration]
    refine (params_keeps hDecl fun p hp => hSign.child (by simp [Node.children, hp])).seq
      fun _ _ => ?_
    refine (statements_keeps hDecl m.body fun s hs =>
      (hOwn id).child (by simp [Node.children, hs])).seq fun t _ => ?_
    exact note_keeps hSign _
  | signature s =>
    refine hDone id ?_
    rw [declaration]
    refine (params_keeps hDecl fun p hp => (hOwn id).child (by simp [Node.children, hp])).seq
      fun _ _ => ?_
    exact needed_keeps _ _
  | typeParam p =>
    refine hDone id ?_
    rw [declaration, map_eq_pure_bind]
    exact (simple_keeps _).seq fun _ _ => .pure fun _ _ => trivial
  | top t =>
    cases t with
    | ofType d => exact .pure (by simp)
    | ofClass d => exact (typeOf_keeps _).mono fun t w _ ht _ _ s hs => ht ▸ hs
  | use u => exact .pure (by simp)
  | value v =>
    cases v with
    | bind m mode name s v => exact (typeOf_keeps _).mono fun t w _ ht _ _ s hs => ht ▸ hs
    | _ => exact hDeclares.elim
  | spec s =>
    cases s with
    | simple m name args => exact .pure (by simp)
    | _ => exact hDeclares.elim
  | _ => exact hDeclares.elim

end Values

theorem length_lt_of_not_mem {vis : List Nat} (hNodup : vis.Nodup) (hVis : ∀ i ∈ vis, i < bound)
    (hi : i < bound) (hNew : i ∉ vis) : vis.length < bound := by
  have hSub : i :: vis ⊆ List.range bound :=
    List.cons_subset.2 ⟨List.mem_range.2 hi, fun j hj => List.mem_range.2 (hVis j hj)⟩
  simpa using (List.subperm_of_subset (List.nodup_cons.2 ⟨hNew, hNodup⟩) hSub).length_le

theorem decl_keeps {depth : Nat} {vis : List Nat} (hNodup : vis.Nodup) (hVis : ∀ i ∈ vis, i < bound)
    (hDepth : bound ≤ depth + vis.length) :
    Types plain K b r first bound vis (decl depth) := by
  induction depth generalizing vis with
  | zero =>
    intro n hn g w hg hw
    rw [decl]
    refine leads_get ?_
    split
    · exact ((typeOf_keeps n.ann.id).mono fun _ _ _ _ => trivial) g w hg hw
    · rename_i hFree
      have hNew : n.ann.id ∉ vis := by simp_all
      have := length_lt_of_not_mem hNodup hVis hn.below.self hNew
      omega
  | succ depth ih =>
    intro n hn g w hg hw
    rw [decl]
    refine leads_get ?_
    split
    · exact ((typeOf_keeps n.ann.id).mono fun _ _ _ _ => trivial) g w hg hw
    · rename_i hFree
      have hNew : n.ann.id ∉ vis := by simp_all
      have hTypes : Types plain K b r first bound (n.ann.id :: vis) (decl depth) :=
        ih (List.nodup_cons.2 ⟨hNew, hNodup⟩) (List.forall_mem_cons.2 ⟨hn.below.self, hVis⟩)
          (by simp only [List.length_cons]; omega)
      have hAll : (n.ann.id :: vis).filter (· ≠ n.ann.id) = vis := by
        rw [List.filter_cons_of_neg (by simp), List.filter_eq_self]
        exact fun i hi => by simpa using fun hEq : i = n.ann.id => hNew (hEq ▸ hi)
      simp only [StateT.run_bind, StateT.run_modify, pure_bind]
      refine (declaration_keeps hTypes hn _ w (by simp [hg]) hw).bind ?_
      rintro p w₁ ⟨hg₁, hw₁, hAhead₁, hType⟩
      refine (setType_leads ((congrArg _ hg₁).trans hAll) hw₁
        fun hp hi s hs => .inl (hType hp hi s hs)).bind ?_
      rintro p' w₂ ⟨hg₂, hw₂, hAhead₂, -⟩
      refine (typeOf_keeps n.ann.id p'.2 w₂ hg₂ hw₂).mono (fun _ _ => id) ?_
      rintro _ _ ⟨hVis', hI, hAhead₃, -⟩
      exact ⟨hVis', hI, (hAhead₁.trans hAhead₂).trans hAhead₃, trivial⟩

theorem decls_keeps (hns : ∀ n ∈ ns, Typeable plain K r bound n) :
    Keeps (Typing plain K b r first bound) (Failing plain K b) [] (decls bound ns)
      fun _ _ => True := by
  induction ns with
  | nil => exact .pure fun _ _ => trivial
  | cons n rest ih =>
    rw [decls]
    refine (decl_keeps List.nodup_nil (by simp) (by simp) n (hns n List.mem_cons_self)).seq
      fun _ _ => ?_
    exact ih fun k hk => hns k (List.mem_cons_of_mem _ hk)

theorem typing_of_underway {w : World} (h : Underway plain K (· = r) b r first w) :
    Typing plain K b r first w.store.next w where
  underway := h
  known hMem symbol hs n hn := by
    cases symbol with
    | type name origin =>
      cases origin with
      | declared i =>
        obtain ⟨d, hd, rfl⟩ := Option.map_eq_some_iff.1 hn
        exact ⟨trivial, (h.sound.tops d (List.mem_of_find?_eq_some hd)).top⟩
      | «variable» p => exact h.sound.refs hMem _ hs n hn
      | unknown => exact nomatch hn
    | named | «alias» => exact h.sound.refs hMem _ hs n hn
    | _ => exact nomatch hn

theorem own_of_fit (h : (Node.root r).All (Node.Fit plain r.scopePath K bound))
    (hn : n ∈ (Node.root r).nodes) : Own plain K r bound n where
  below := (h.of_mem hn).mono fun _ hk => hk.high
  clear _ := (h.of_mem hn).mono fun _ hk => hk.clear
  refers _ x hx := by
    obtain ⟨k, hk, hx⟩ := List.mem_flatMap.1 hx
    exact List.mem_flatMap.2 ⟨k, Node.nodes_subset hn hk, hx⟩

theorem decls_leads {w : World} (h : Underway plain K (· = r) b r first w) (hg : g.visiting = [])
    (hns : ∀ n ∈ ns, n ∈ (Node.root r).nodes ∧ n.Declares) :
    Check.Leads ((do decls (← Check.store).next ns : Infer Unit).run g) w (Failing plain K b)
      fun _ w' => Underway plain K (· = r) b r first w' ∧ w'.store.table = w.store.table := by
  rw [StateT.run_bind]
  refine (leads_lift (.store (Q := fun st w' => st = w.store ∧ w' = w) ⟨rfl, rfl⟩)).bind
    fun p w₁ ⟨hSame, hst, hw₁⟩ => ?_
  obtain ⟨st, g₁⟩ := p
  subst hSame hst hw₁
  refine (decls_keeps (fun n hn => ?_) g₁ w₁ hg (typing_of_underway h)).mono (fun _ _ => id)
    fun _ _ ⟨_, hTyping, hAhead, _⟩ => ⟨hTyping.underway, hAhead.table⟩
  exact (own_of_fit h.fit (hns n hn).1).typeable (hns n hn).2

theorem top_leads {w : World} (h : Underway plain K (· = r) b r first w) :
    Check.Leads ((top r).run .start) w (Failing plain K b) fun _ w' =>
      Underway plain K (· = r) b r first w' ∧ w'.store.table = w.store.table := by
  have hTop : .top r.top ∈ (Node.root r).nodes :=
    Node.mem_nodes_of_child (Node.self_mem_nodes _) (by simp [Node.children])
  have hClear : ¬K r.top.ann.id := (h.fit _ hTop).clear
  unfold top
  cases hKind : r.top with
  | ofType d =>
    rw [hKind] at hTop
    refine decls_leads h rfl (List.forall_mem_map.2 fun s hs => ⟨?_, trivial⟩)
    exact Node.mem_nodes_of_child hTop (by simp [Node.children, hs])
  | ofClass d =>
    rw [hKind] at hTop hClear
    simp only [StateT.run_bind, StateT.run_modify, pure_bind]
    refine (simple_keeps _ _ w rfl (typing_of_underway h)).bind
      fun p w₁ ⟨hg₁, hw₁, hAhead₁, _⟩ => ?_
    refine (Typing.fresh newMeta (fun k => Nat.le_succ k) p.2 w₁ hg₁ hw₁).bind
      fun p' w₂ ⟨hg₂, hw₂, hAhead₂, _⟩ => ?_
    refine (setType_keeps _ (fun _ => hClear) p'.2 w₂ hg₂ hw₂).bind
      fun p'' w₃ ⟨hg₃, hw₃, hAhead₃, _⟩ => ?_
    rw [← ((hAhead₁.trans hAhead₂).trans hAhead₃).table]
    refine decls_leads hw₃.underway hg₃ (List.forall_mem_append.2
      ⟨List.forall_mem_map.2 fun a ha => ⟨?_, trivial⟩, List.forall_mem_map.2 fun m hm => ⟨?_, trivial⟩⟩)
    · exact Node.mem_nodes_of_child hTop (by simp [Node.children, ha])
    · exact Node.mem_nodes_of_child hTop (by simp [Node.children, hm])

end Steps

end Infer

variable {plain : Plain} {K : Nat → Prop} {b w : World} {r : Root Meta} {first : Nat}

theorem Check.retype_spec {change : Spec → Fresh (Option Spec)}
    (hChange : ∀ t k, (change t).Gives k fun _ _ => True) {n : Node Meta}
    (hn : n ∈ (Node.root r).nodes) (h : Underway plain K (· = r) b r first w) :
    Check.Leads (Check.retype change n.ann.id) w (Failing plain K b) fun _ w' =>
      Underway plain K (· = r) b r first w' ∧ w'.store.table = w.store.table := by
  refine .bind (P := fun _ w' => w' = w) (.store rfl) fun st w₁ hw₁ => ?_
  subst hw₁
  split
  · rename_i t _
    refine .bind (P := fun _ w' => Underway plain K (· = r) b r first w' ∧
      w'.store.table = w₁.store.table) (.fresh ⟨h.grow (hChange t _).1, rfl⟩) fun new w₂ h₂ => ?_
    cases new with
    | none => exact .pure h₂
    | some t' =>
      exact .modifyStore ⟨h₂.1.setType fun _ hId => absurd hId (h.fit n hn).clear, h₂.2⟩
  · exact .pure ⟨h, rfl⟩

theorem Check.flattenTypes_spec (hns : ns ⊆ (Node.root r).nodes)
    (h : Underway plain K (· = r) b r first w) :
    Check.Leads (Check.flattenTypes ns) w (Failing plain K b) fun _ w' =>
      Underway plain K (· = r) b r first w' ∧ w'.store.table = w.store.table := by
  induction ns generalizing w with
  | nil => exact .pure ⟨h, rfl⟩
  | cons n rest ih =>
    obtain ⟨hn, hRest⟩ := List.cons_subset.1 hns
    refine (Check.retype_spec (fun t k => ?_) hn h).bind fun _ w₁ ⟨h₁, hTable⟩ => hTable ▸ ih hRest h₁
    exact (TypeSpec.flatten?_recast k t).mono fun _ _ _ _ => trivial

theorem ClassDecl.removeNone_spec (d : ClassDecl Meta) {attributes : List (Attribute Meta)}
    (ha : ∀ a ∈ attributes, .attribute a ∈ (Node.root r).nodes)
    (h : Underway plain K (· = r) b r first w) :
    Check.Leads (d.removeNone attributes) w (Failing plain K b) fun _ w' =>
      Underway plain K (· = r) b r first w' ∧ w'.store.table = w.store.table := by
  induction attributes generalizing w with
  | nil => exact .pure ⟨h, rfl⟩
  | cons a rest ih =>
    obtain ⟨ha, hRest⟩ := List.forall_mem_cons.1 ha
    rw [ClassDecl.removeNone]
    refine .bind (P := fun _ w' => w' = w) (.store rfl) fun st w₁ hw₁ => ?_
    subst hw₁
    split
    · exact (Check.retype_spec ClassDecl.withoutNone?_gives ha h).bind fun _ w₂ ⟨h₂, hTable⟩ =>
        hTable ▸ ih hRest h₂
    · exact ih hRest h

theorem Root.infer_spec (h : Underway plain K (· = r) b r first w) :
    Check.Leads r.infer w (Failing plain K b) fun _ w' =>
      Underway plain K (· = r) b r first w' ∧ w'.store.table = w.store.table := by
  refine .traced ?_
  refine (Infer.top_leads h).bind fun p w₁ ⟨h₁, hTable₁⟩ => ?_
  refine (Check.flattenTypes_spec (fun _ hn => hn) h₁).bind fun _ w₂ ⟨h₂, hTable₂⟩ => ?_
  have hTable := hTable₂.trans hTable₁
  split
  · rename_i d hKind
    have hTop : .top r.top ∈ (Node.root r).nodes :=
      Node.mem_nodes_of_child (Node.self_mem_nodes _) (by simp [Node.children])
    refine (ClassDecl.removeNone_spec d (fun a ha => ?_) h₂).bind fun _ w₃ ⟨h₃, hTable₃⟩ =>
      .pure ⟨h₃, hTable₃.trans hTable⟩
    exact Node.mem_nodes_of_child (hKind ▸ hTop) (by simp [Node.children, ha])
  · exact .pure ⟨h₂, hTable⟩

end Assay
