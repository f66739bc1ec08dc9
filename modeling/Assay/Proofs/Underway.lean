import Mathlib
import Assay.Proofs.Linked
import Assay.Proofs.Renewed
import Assay.Proofs.Sound

/-! The check of one source, from the time its type is declared. What it does to the world is a step
at a time, and each kind of step keeps the world sound, leaves alone what belongs to others and puts
into the body of the source nothing but nodes of the source. -/

namespace Assay

variable {h path : Path} {name : Name} {i : Nat} {symbol : Symbol}

theorem InBody.mono {path' : Path} (hBody : InBody h path) (hPath : path <+: path') :
    InBody h path' :=
  List.IsPrefix.trans hBody hPath

theorem not_inBody (hWords : ∀ part ∈ path, Text.isWord part) : ¬InBody h path := by
  intro hBody
  have hMem : bodyName ∈ path := hBody.subset (by simp)
  exact absurd (hWords _ hMem) (by decide +kernel)

theorem InBody.unique {h' : Path} (hBody : InBody h path) (hBody' : InBody h' path)
    (hWords : ∀ part ∈ h, Text.isWord part) (hWords' : ∀ part ∈ h', Text.isWord part) : h = h' := by
  -- Of two prefixes of one path, the shorter one and the `[body]` after it begin the longer one.
  have hShort {h h' : Path} (hBody : InBody h path) (hBody' : InBody h' path)
      (hWords' : ∀ part ∈ h', Text.isWord part) (hLe : h.length ≤ h'.length) : h = h' := by
    have hPrefix : h <+: h' :=
      List.prefix_of_prefix_length_le ((List.prefix_append _ _).trans hBody)
        ((List.prefix_append _ _).trans hBody') hLe
    obtain hEq | hLt := Nat.eq_or_lt_of_le hLe
    · exact hPrefix.eq_of_length hEq
    · have hInside : InBody h h' :=
        List.prefix_of_prefix_length_le hBody ((List.prefix_append _ _).trans hBody')
          (by simpa using hLt)
      exact absurd hInside (not_inBody hWords')
  obtain hLe | hLe := Nat.le_total h.length h'.length
  · exact hShort hBody hBody' hWords' hLe
  · exact (hShort hBody' hBody hWords hLe).symm

namespace Root

variable {α : Type} {r : Root α}

theorem isDotted_fullName (hSpace : Text.Spaced r.space) (hName : Text.isWord r.top.name) :
    Text.isDotted r.fullName := by
  rw [fullName]
  obtain h | h := hSpace
  · rw [if_pos h]
    exact Text.isDotted_of_isWord hName
  · split
    · exact Text.isDotted_of_isWord hName
    · exact Text.isDotted_append h (Text.isDotted_of_isWord hName)

theorem splitOn_full (hName : Text.isWord r.top.name) :
    Text.splitOn 46 r.fullName = spacePath r.space ++ [r.top.name] := by
  have hOwn : Text.splitOn 46 r.top.name = [r.top.name] :=
    Text.splitOn_of_not_mem (Text.not_mem_of_isWord hName (by decide) (by decide +kernel))
  rw [fullName, spacePath]
  split
  · rename_i h
    simp [h, hOwn]
  · rename_i h
    rw [if_neg (by simpa using h), ← hOwn, ← Text.splitOn_append, List.append_assoc]
    rfl

theorem splitOn_fullName {r : Root Meta} (hName : Text.isWord r.top.name) :
    Text.splitOn 46 r.fullName = r.scopePath :=
  splitOn_full hName

end Root

/-- What holds while a source is checked, if the check began in the world `b`. The first node of its
declaration had the number `first`. -/
structure Checking (plain : Plain) (K : Nat → Prop) (T : Root Meta → Prop) (b : World)
    (r : Root Meta) (first : Nat) (w : World) : Prop where
  low : ∀ i, K i → i < b.store.next
  flying : ∀ u ∈ b.units, u.status = .compiling → ∃ r', u.root = some r' ∧
    ((∃ d ∈ b.store.tops, d.id = r'.top.ann.id ∧ d.name = r'.fullName) ∨
      r'.top.ann.id = first ∧ r'.fullName = r.fullName)
  absent : ∀ d ∈ b.store.tops, d.id ≠ first ∧ d.top.ann.id ≠ first
  unread : ∀ {i role}, (i, role) ∈ (Node.root r).referrals → b.store.refsOf? i = none
  spaced : plain → Text.Spaced r.space
  nodup : (Node.root r).ids.Nodup
  sound : Sound plain w
  moves : Moves plain K T b w
  fit : (Node.root r).All (Node.Fit plain r.scopePath K w.store.next)
  owned : ∀ d ∈ w.store.tops, d ∈ b.store.tops ∨ d.id = first ∨
    ∃ u ∈ w.units, u.status = .compiled ∧ ∃ r', u.root = some r' ∧ d.Of r'
  others : ∀ u ∈ w.units, ∀ r', u.root = some r' →
    r'.top.ann.id = first ∧ r'.fullName = r.fullName ∧ u.status = .compiling ∨
      r'.top.ann.id ≠ first ∧ r'.top.ann.id ≠ r.top.ann.id

/-- A symbol of a node in a body, and the name that it is declared under: a type variable, which
goes by its own name, or the name of a value. -/
inductive Symbol.Own : Symbol → Name → Prop
  | param (p : TypeParam Meta) : Own (.type p.name (.variable p)) (Name.ofText p.name)
  | named (text : Text) (n : Node Meta) (name : Name) : Own (.named text (some n)) name

/-- What holds of a symbol that a reference stands for, where `refs` are all references of its
source. -/
def Symbol.Meant (K : Nat → Prop) (refs : List (Nat × Node.Role)) (role : Node.Role)
    (symbol : Symbol) : Prop :=
  ∀ n, symbol.node? = some n → (n.IsType ∨ n.Clear K ∧ n.referrals ⊆ refs) ∧
    ∀ args text params, role = .call args → n.arity? = some (text, params) → params = args

/-- What holds from the time the type of the source is declared. -/
structure Underway (plain : Plain) (K : Nat → Prop) (T : Root Meta → Prop) (b : World)
    (r : Root Meta) (first : Nat) (w : World) : Prop extends Checking plain K T b r first w where
  linked : w.store.Linked (.root r)
  alone : plain → ∀ {path}, InBody r.scopePath path → ¬b.store.Hosted path
  declared : ∃ d ∈ w.store.tops, d.id = first ∧ d.top.ann.id = r.top.ann.id ∧ d.name = r.fullName
  body : plain → ∀ {path key n symbol}, InBody r.scopePath path →
    w.store.table.Entry path key n symbol → ∀ node, symbol.node? = some node →
      node.Clear K ∧ node.referrals ⊆ (Node.root r).referrals
  meant : plain → ∀ {i role symbols}, (i, role) ∈ (Node.root r).referrals →
    w.store.refsOf? i = some symbols →
      ∀ symbol ∈ symbols, symbol.Meant K (Node.root r).referrals role

/-- How another unit's load is to go: from a sound world in which the units being compiled have
declared their types, with at most `depth` units pending, it gives no tree and leaves alone what
there is. -/
def Load.Meets (plain : Plain) (depth : Nat) (load : Load) : Prop :=
  ∀ w name trigger, Sound plain w → Flying w →
    (w.units.filter (·.status = .pending)).length ≤ depth → (plain → name.Dotted) →
      Check.Leads (load name trigger) w (Failing plain (· < w.store.next) w) fun found w' =>
        Advances plain w w' ∧ ∀ symbol, found = some symbol → symbol.Loaded plain w' name

theorem Sound.Change.link {plain : Plain} (w : World) (n : Node Meta) :
    Sound.Change plain w { w with store := w.store.link n } :=
  ⟨rfl, rfl, rfl, rfl, Nat.le_refl _, fun hFree => hFree, id, .inl, List.suffix_refl _, .inl⟩

namespace Moves

variable {plain : Plain} {K : Nat → Prop} {T : Root Meta → Prop} {b w : World}

theorem link (h : Moves plain K T b w) {n : Node Meta} (hClear : ∀ i ∈ n.ids, ¬K i) :
    Moves plain K T b { w with store := w.store.link n } :=
  h.change (.link w n) (fun _ _ _ _ _ _ => id) (fun _ _ _ => rfl) (fun _ _ _ => .inl rfl)
    fun i hi => Store.relativesOf?_link _ fun hMem => hClear i hMem hi

theorem mem_of_compiling (h : Moves plain K T b w) {u : SourceUnit} (hu : u ∈ w.units)
    (hStatus : u.status = .compiling) : u ∈ b.units :=
  (h.unit_cases hu).resolve_right fun ⟨hCompiled, _⟩ => by simp [hStatus] at hCompiled

theorem pending_le (h : Moves plain K T b w) :
    (w.units.filter (·.status = .pending)).length ≤
      (b.units.filter (·.status = .pending)).length := by
  have hUnits := h.units
  generalize b.units = us, w.units = us' at hUnits
  induction hUnits with
  | nil => exact Nat.le_refl _
  | cons hStep _ ih =>
    rw [List.filter_cons, List.filter_cons]
    obtain rfl | ⟨hPending, hCompiled, _⟩ := hStep
    · split
      · simpa using ih
      · exact ih
    · simpa [hPending, hCompiled] using Nat.le_succ_of_le ih

end Moves

namespace Checking

variable {plain : Plain} {K : Nat → Prop} {T : Root Meta → Prop} {b w w' : World} {r : Root Meta}
  {first : Nat}

theorem isWord_name (h : Checking plain K T b r first w) (hp : plain) : Text.isWord r.top.name :=
  (h.fit.child (k := .top r.top) (by simp [Node.children])).self.worded hp

theorem isDotted_fullName (h : Checking plain K T b r first w) (hp : plain) :
    Text.isDotted r.fullName :=
  Root.isDotted_fullName (h.spaced hp) (h.isWord_name hp)

theorem words (h : Checking plain K T b r first w) (hp : plain) :
    ∀ part ∈ r.scopePath, Text.isWord part := by
  rw [← Root.splitOn_fullName (h.isWord_name hp)]
  exact List.all_eq_true.1 (h.isDotted_fullName hp)

theorem scope (h : Checking plain K T b r first w) : r.ann.scope = some r.scopePath := by
  obtain ⟨path, hScope, rfl⟩ := h.fit.self.inside
  exact hScope

theorem not_hosted_home (h : Checking plain K T b r first w) (hp : plain)
    (hPath : path = [] ∨ path = r.scopePath) (hName : name.Dotted) :
    ¬b.store.Hosted (Scope.home path name) ∧ ¬InBody r.scopePath (Scope.home path name) := by
  have hWords : ∀ part ∈ Scope.home path name, Text.isWord part := by
    refine hName.home ?_
    obtain rfl | rfl := hPath
    · simp
    · exact h.words hp
  exact ⟨fun ⟨_, _, hBody⟩ => not_inBody hWords hBody, not_inBody hWords⟩

theorem low_next (h : Checking plain K T b r first w) (hi : K i) : i < w.store.next :=
  Nat.lt_of_lt_of_le (h.low i hi) h.moves.next

theorem load_failing (h : Checking plain K T b r first w) {f : Fault}
    (hFail : Failing plain (· < w.store.next) w f w') : Failing plain K b f w' where
  odd := hFail.odd
  ofNames := hFail.ofNames
  sound := hFail.sound
  moves := (h.moves.vacuous hFail.odd).trans
    (hFail.moves.mono (fun _ => h.low_next) fun _ => False.elim)

theorem failing (h : Checking plain K T b r first w) {f : Fault} (hKey : name.key = .error f)
    (hName : plain → ∃ key, name.key = .ok key) :
    Failing plain K b f w where
  odd hp := by
    obtain ⟨key, hOk⟩ := hName hp
    simp [hKey] at hOk
  ofNames := .of_key hKey
  sound := h.sound
  moves := h.moves.vacuous fun hp => by
    obtain ⟨key, hOk⟩ := hName hp
    simp [hKey] at hOk

theorem change (h : Checking plain K T b r first w) (hChange : Sound.Change plain w w')
    (hBodies : plain → ∀ {path key n symbol}, b.store.Hosted path →
      w'.store.table.Entry path key n symbol → w.store.table.Entry path key n symbol)
    (hRefs : plain → ∀ i, K i → w'.store.refsOf? i = w.store.refsOf? i)
    (hTypes : plain → ∀ i, K i →
      w'.store.typeOf? i = w.store.typeOf? i ∨ w'.Assigns K T i)
    (hLinks : ∀ i, K i → w'.store.relativesOf? i = w.store.relativesOf? i) :
    Checking plain K T b r first w' where
  low := h.low
  flying := h.flying
  absent := h.absent
  unread := h.unread
  spaced := h.spaced
  nodup := h.nodup
  sound := h.sound.change hChange
  moves := h.moves.change hChange hBodies hRefs hTypes hLinks
  fit := h.fit.mono fun _ hn => hn.mono hChange.next
  owned := hChange.tops ▸ hChange.units ▸ h.owned
  others := hChange.units ▸ h.others

theorem below (h : Checking plain K T b r first w) : ∀ i ∈ (Node.root r).ids, i < w.store.next :=
  List.forall_mem_map.2 fun n hn => (h.fit n hn).high

theorem clear (h : Checking plain K T b r first w) : ∀ i ∈ (Node.root r).ids, ¬K i :=
  List.forall_mem_map.2 fun n hn => (h.fit n hn).clear

theorem link (h : Checking plain K T b r first w) :
    Checking plain K T b r first { w with store := w.store.link (.root r) } :=
  h.change (.link w _) (fun _ _ _ _ _ _ => id) (fun _ _ _ => rfl) (fun _ _ _ => .inl rfl)
    fun i hi => Store.relativesOf?_link _ fun hMem => h.clear i hMem hi

theorem find (h : Checking plain K T b r first w) (hName : plain → ∃ key, name.key = .ok key) :
    Check.Leads (Check.find path name) w (Failing plain K b) fun symbols w' =>
      w' = w ∧ w.store.table.find path name = .ok symbols := by
  refine .find ?_
  cases hFind : w.store.table.find path name with
  | ok symbols => exact ⟨rfl, rfl⟩
  | error f => exact h.failing (Scope.key_of_find_fault hFind) hName

theorem findIn (h : Checking plain K T b r first w) (hName : plain → ∃ key, name.key = .ok key) :
    Check.Leads (Check.findIn path name) w (Failing plain K b) fun _ w' => w' = w := by
  refine .findIn ?_
  cases hFind : w.store.table.findIn path name with
  | ok symbols => exact rfl
  | error f => exact h.failing (Scope.key_of_findIn_fault hFind) hName

end Checking

namespace Underway

variable {plain : Plain} {K : Nat → Prop} {T : Root Meta → Prop} {b w w' : World} {r : Root Meta}
  {first : Nat}

theorem flies (h : Underway plain K T b r first w) : Flying w := by
  intro u hu hStatus
  obtain ⟨r', hRoot, ⟨d, hd, hId, hName⟩ | ⟨hId, hName⟩⟩ :=
    h.flying u (h.moves.mem_of_compiling hu hStatus) hStatus
  · exact ⟨r', d, hRoot, h.moves.prefix_tops.subset hd, hId, hName⟩
  · obtain ⟨d, hd, hdId, _, hdName⟩ := h.declared
    exact ⟨r', d, hRoot, hd, hdId.trans hId.symm, hdName.trans hName.symm⟩

/-- A change of the table, the logs and the counter that leaves others alone, and that puts nothing
into the body but nodes of the source. -/
theorem change (h : Underway plain K T b r first w) (hChange : Sound.Change plain w w')
    (hTable : plain → ∀ {path key n symbol}, w'.store.table.Entry path key n symbol →
      w.store.table.Entry path key n symbol ∨ ¬b.store.Hosted path ∧
        (InBody r.scopePath path → ∀ node, symbol.node? = some node →
          node.Clear K ∧ node.referrals ⊆ (Node.root r).referrals))
    (hRefs : plain → ∀ i, w'.store.refsOf? i = w.store.refsOf? i ∨ ¬K i ∧
      ∀ {role symbols}, (i, role) ∈ (Node.root r).referrals → w'.store.refsOf? i = some symbols →
        ∀ symbol ∈ symbols, symbol.Meant K (Node.root r).referrals role)
    (hTypes : plain → ∀ i, K i →
      w'.store.typeOf? i = w.store.typeOf? i ∨ w'.Assigns K T i)
    (hLinks : w'.store.links = w.store.links) : Underway plain K T b r first w' where
  toChecking := by
    refine h.toChecking.change hChange (fun hp path key n symbol hHosted hEntry => ?_)
      (fun hp i hi => (hRefs hp i).resolve_right fun hNew => hNew.1 hi) hTypes
      (fun i _ => congrArg (List.lookup i) hLinks)
    exact (hTable hp hEntry).resolve_right fun hNew => hNew.1 hHosted
  linked x hx := (congrArg (List.lookup _) hLinks).trans (h.linked x hx)
  alone := h.alone
  declared := hChange.tops ▸ h.declared
  body hp path key n symbol hBody hEntry node hNode := by
    obtain hOld | hNew := hTable hp hEntry
    · exact h.body hp hBody hOld node hNode
    · exact hNew.2 hBody node hNode
  meant hp i role symbols hi hSymbols := by
    obtain hSame | ⟨_, hNew⟩ := hRefs hp i
    · exact h.meant hp hi (hSame ▸ hSymbols)
    · exact hNew hi hSymbols

theorem declare (h : Underway plain K T b r first w) (hFit : ∀ key, name.key = .ok key → symbol.Fit
      plain (w.declare path name symbol) (Scope.home path name) key)
    (hAway : plain → ¬b.store.Hosted (Scope.home path name)) (hOwn : plain → InBody r.scopePath
      (Scope.home path name) → ∀ node, symbol.node? = some node → node.Clear K ∧ node.referrals ⊆
      (Node.root r).referrals) : Underway plain K T b r first (w.declare path name symbol) := by
  refine h.change ⟨rfl, rfl, rfl, rfl, Nat.le_refl _, Scope.free_of_declare, .declare, ?_,
    List.suffix_refl _, .inl⟩ ?_ (fun _ _ => .inl rfl) (fun _ _ _ => .inl rfl) rfl
  · intro q key n other hEntry
    obtain hOld | ⟨_, rfl, hKey, _, rfl⟩ := Scope.entry_of_declare hEntry
    · exact .inl hOld
    · exact .inr (hFit key hKey)
  · intro hp q key n other hEntry
    obtain hOld | ⟨_, rfl, _, _, rfl⟩ := Scope.entry_of_declare hEntry
    · exact .inl hOld
    · exact .inr ⟨hAway hp, hOwn hp⟩

theorem leads_declare (h : Underway plain K T b r first w)
    (hName : plain → ∃ key, name.key = .ok key) (hFit : ∀ key, name.key = .ok key → symbol.Fit plain
      (w.declare path name symbol) (Scope.home path name) key)
    (hAway : plain → ¬b.store.Hosted (Scope.home path name)) (hOwn : plain → InBody r.scopePath
      (Scope.home path name) → ∀ node, symbol.node? = some node → node.Clear K ∧ node.referrals ⊆
      (Node.root r).referrals) :
    Check.Leads (Check.declare path name symbol) w (Failing plain K b) fun _ w' =>
      Underway plain K T b r first w' ∧ w' = w.declare path name symbol := by
  have hAfter := h.declare hFit hAway hOwn
  exact .declare (fun f hKey => hAfter.failing hKey hName) fun _ => ⟨hAfter, rfl⟩

theorem hosted (h : Underway plain K T b r first w) (hp : plain) (hBody : InBody r.scopePath path) :
    w.store.Hosted path := by
  obtain ⟨d, hd, _, _, hName⟩ := h.declared
  exact ⟨d, hd, by rwa [hName, Root.splitOn_fullName (h.isWord_name hp)]⟩

theorem leads_own (h : Underway plain K T b r first w) (hSymbol : symbol.Own name) {n : Node Meta}
    (hNode : symbol.node? = some n) (hn : n ∈ (Node.root r).nodes)
    (hBody : plain → InBody r.scopePath (Scope.home path name))
    (hName : plain → ∃ key, name.key = .ok key) (hDeclares : n.Declares)
    (hArity : plain → ∀ key, name.key = .ok key → ∀ text k, n.arity? = some (text, k) → Text.isWord
      text ∧ key = .overloads (callName text k)) :
    Check.Leads (Check.declare path name symbol) w (Failing plain K b) fun _ w' =>
      Underway plain K T b r first w' ∧ w' = w.declare path name symbol := by
  have hFit := h.fit.of_mem hn
  have hWord (hp : plain) {full : Text} (hFull : symbol.full? = some full) : Text.isWord full := by
    cases hSymbol with
    | param p =>
      obtain rfl := Option.some.inj hFull
      obtain rfl := Option.some.inj hNode
      exact hFit.self.worded hp
    | named => exact nomatch hFull
  refine h.leads_declare hName (fun key hKey => ?_) (fun hp => h.alone hp (hBody hp))
    fun hp _ node hEq => ?_
  · refine
      { declares := fun node hEq => ?_
        keyed := fun full hFull => ?_
        origin := fun _ _ hType => absurd (hType ▸ hSymbol) (nomatch ·)
        dotted := fun hp full hFull => Text.isDotted_of_isWord (hWord hp hFull)
        hosted := fun hp _ _ => .inr (h.hosted hp (hBody hp))
        arity := fun hp node text k hEq => ?_
        inside := fun hp _ => h.hosted hp (hBody hp)
        known := fun hp full hFull => .inr ⟨h.hosted hp (hBody hp), ?_⟩
        aliased := fun _ _ _ _ hAlias => absurd (hAlias ▸ hSymbol) (nomatch ·)
        loaded := fun _ full hLoaded => ?_
        declared := fun _ _ _ hType => absurd (hType ▸ hSymbol) (nomatch ·) }
    · obtain rfl := Option.some.inj (hNode.symm.trans hEq)
      exact ⟨hDeclares, hFit.mono fun _ hk => hk.high⟩
    · cases hSymbol with
      | param p => exact Option.some.inj hFull ▸ ⟨key, hKey⟩
      | named => exact nomatch hFull
    · obtain rfl := Option.some.inj (hNode.symm.trans hEq)
      exact hArity hp key hKey text k
    · cases hSymbol with
      | param p =>
        obtain rfl := Option.some.inj hFull
        rw [(Name.dotted_ofText (Text.isDotted_of_isWord (hWord hp hFull))).key,
          Name.ofText_of_isWord (hWord hp hFull)] at hKey
        exact (Except.ok.inj hKey).symm
      | named => exact nomatch hFull
    · cases hSymbol <;> exact nomatch hLoaded
  · obtain rfl := Option.some.inj (hNode.symm.trans hEq)
    refine ⟨hFit.mono fun _ hk => hk.clear, fun x hx => ?_⟩
    obtain ⟨k, hk, hx⟩ := List.mem_flatMap.1 hx
    exact List.mem_flatMap.2 ⟨k, Node.nodes_subset hn hk, hx⟩

theorem leads_alias (h : Underway plain K T b r first w) {text target : Text} {n : Node Meta}
    (hText : plain → Text.isWord text) (hKeyed : Text.Keyed target)
    (hTarget : plain → Text.isDotted target) (hKnown : plain → w.store.table.Taken target)
    (hType : n.IsType) (hDeclares : n.Declares) (hBelow : n.Below w.store.next) :
    Check.Leads (Check.declare r.scopePath (Name.ofText text) (.alias i target (some n))) w
      (Failing plain K b) fun _ w' => Underway plain K T b r first w' ∧
        w' = w.declare r.scopePath (Name.ofText text) (.alias i target (some n)) := by
  have hName (hp : plain) : (Name.ofText text).Dotted :=
    Name.dotted_ofText (Text.isDotted_of_isWord (hText hp))
  have hHome (hp : plain) : Scope.home r.scopePath (Name.ofText text) = r.scopePath := by
    rw [Name.ofText_of_isWord (hText hp)]
    rfl
  refine h.leads_declare (fun hp => ⟨_, (hName hp).key⟩) (fun key _ => ?_)
    (fun hp => (h.not_hosted_home hp (.inr rfl) (hName hp)).1)
    fun hp hBody => absurd hBody (h.not_hosted_home hp (.inr rfl) (hName hp)).2
  refine
    { declares := fun node hNode => ?_
      keyed := fun full hFull => Option.some.inj hFull ▸ hKeyed
      origin := fun _ _ hEq => nomatch hEq
      dotted := fun hp full hFull => Option.some.inj hFull ▸ hTarget hp
      hosted := fun hp node hNode => .inl ?_
      arity := fun _ node name k hNode => ?_
      inside := fun _ hValue => hValue.elim
      known := fun hp full hFull => .inl fun hFree => ?_
      aliased := fun hp _ _ _ _ => ?_
      loaded := fun _ _ hLoaded => nomatch hLoaded
      declared := fun _ _ _ hEq => nomatch hEq }
  · obtain rfl := Option.some.inj hNode
    exact ⟨hDeclares, hBelow⟩
  · obtain rfl := Option.some.inj hNode
    exact ⟨hType, fun _ => not_inBody ((hName hp).home (h.words hp))⟩
  · obtain rfl := Option.some.inj hNode
    cases n with
    | top | use | spec => exact fun hArity => nomatch hArity
    | _ => exact hType.elim
  · obtain rfl := Option.some.inj hFull
    exact hKnown hp (Scope.free_of_declare hFree)
  · obtain ⟨d, hd, _, _, hFull⟩ := h.declared
    exact ⟨d, hd, by rw [hHome hp, hFull, Root.splitOn_fullName (h.isWord_name hp)]⟩

theorem setRefs (h : Underway plain K T b r first w) {symbols : List Symbol}
    (hBelow : i < w.store.next)
    (hSymbols : ∀ symbol ∈ symbols, ∀ n, symbol.node? = some n → n.Declares ∧ n.Below w.store.next)
    (hClear : plain → ¬K i) (hMeant : plain → ∀ role, (i, role) ∈ (Node.root r).referrals → ∀ symbol
      ∈ symbols, symbol.Meant K (Node.root r).referrals role) :
    Underway plain K T b r first { w with store := w.store.setRefs i symbols } := by
  refine h.change ⟨rfl, rfl, rfl, rfl, Nat.le_refl _, fun hFree => hFree, id, .inl,
    List.suffix_cons _ _, ?_⟩ (fun _ _ _ _ _ => .inl) (fun hp j => ?_) (fun _ _ _ => .inl rfl) rfl
  · intro j others hMem
    obtain hNew | hOld := List.mem_cons.1 hMem
    · obtain ⟨rfl, rfl⟩ := Prod.mk.inj hNew
      exact .inr ⟨hBelow, hSymbols⟩
    · exact .inl hOld
  · by_cases hEq : j = i
    · subst hEq
      refine .inr ⟨hClear hp, fun {role others} hj hOthers => ?_⟩
      rw [Store.refsOf?_setRefs_self] at hOthers
      exact Option.some.inj hOthers ▸ hMeant hp role hj
    · exact .inl (Store.refsOf?_setRefs_of_ne _ _ hEq)

theorem setType (h : Underway plain K T b r first w) {t : TypeSpec Meta}
    (hType : plain → K i → w.store.typeOf? i = some t ∨ w.Assigns K T i) :
    Underway plain K T b r first { w with store := w.store.setType i t } := by
  refine h.change ⟨rfl, rfl, rfl, rfl, Nat.le_refl _, fun hFree => hFree, id, .inl,
    List.suffix_refl _, .inl⟩ (fun _ _ _ _ _ => .inl) (fun _ _ => .inl rfl) (fun hp j hj => ?_) rfl
  by_cases hEq : j = i
  · subst hEq
    obtain hSame | hAssigns := hType hp hj
    · exact .inl ((Store.typeOf?_setType_self _ _ _).trans hSame.symm)
    · exact .inr hAssigns
  · exact .inl (Store.typeOf?_setType_of_ne _ _ hEq)

theorem derive (h : Underway plain K T b r first w) {j : Nat} (hBelow : j < w.store.next)
    (hClear : ¬K j) (hUnnamed : ∀ role, (j, role) ∉ (Node.root r).referrals) :
    Underway plain K T b r first { w with store := w.store.derive i j } := by
  have hTyped : Underway plain K T b r first
      { w with store := (w.store.typeOf? i).elim w.store (w.store.setType j) } := by
    cases w.store.typeOf? i with
    | none => exact h
    | some t => exact h.setType fun _ hj => absurd hj hClear
  have hNext : ((w.store.typeOf? i).elim w.store (w.store.setType j)).next = w.store.next := by
    cases w.store.typeOf? i <;> rfl
  unfold Store.derive
  simp only
  generalize (w.store.typeOf? i).elim w.store (w.store.setType j) = st at hTyped hNext
  cases hRefs : st.refsOf? i with
  | none => exact hTyped
  | some symbols =>
    refine hTyped.setRefs (hNext ▸ hBelow) (fun symbol hs n hn => ?_) (fun _ => hClear)
      fun _ role hj => absurd hj (hUnnamed role)
    exact hTyped.sound.refs (Store.refsOf?_mem hRefs) symbol hs n hn

theorem inherit {low : Nat} {r' : Root Meta} (h : Underway plain K T b r first w)
    (hLow : ∀ i, K i → i < low) (hOwn : (Node.root r).All (·.ann.id < low))
    (hNew : ∀ p ∈ (Node.root r).renewals Meta.id (.root r'), low ≤ p.2 ∧ p.2 < w.store.next) :
    Underway plain K T b r first { w with store := w.store.inherit (.root r) (.root r') } := by
  unfold Store.inherit
  generalize (Node.root r).renewals Meta.id (.root r') = pairs at hNew
  induction pairs generalizing w with
  | nil => exact h
  | cons p rest ih =>
    rw [List.forall_mem_cons] at hNew
    rw [List.foldl_cons]
    have hDerived := h.derive (i := p.1) hNew.1.2 (fun hK => by have := hLow _ hK; omega)
      fun role hMem => by
        obtain ⟨n, hn, hId⟩ := Node.exists_of_mem_referrals hMem
        have := hOwn n hn
        omega
    refine ih hDerived fun q hq => ?_
    rw [(w.store.derive_frame p.1 p.2).2.2.2]
    exact hNew.2 q hq

theorem grow (h : Underway plain K T b r first w) {k : Nat} (hk : w.store.next ≤ k) :
    Underway plain K T b r first { w with store := { w.store with next := k } } :=
  h.change ⟨rfl, rfl, rfl, rfl, hk, fun hFree => hFree, id, .inl, List.suffix_refl _, .inl⟩
    (fun _ _ _ _ _ => .inl) (fun _ _ => .inl rfl) (fun _ _ _ => .inl rfl) rfl

theorem first_lt (h : Underway plain K T b r first w) : first < w.store.next := by
  obtain ⟨d, hd, rfl, _⟩ := h.declared
  exact (h.sound.tops d hd).id

theorem load (h : Underway plain K T b r first w) (hLoad : Advances plain w w') :
    Underway plain K T b r first w' where
  low := h.low
  flying := h.flying
  absent := h.absent
  unread := h.unread
  spaced := h.spaced
  linked x hx := (hLoad.moves.links _ (h.fit _ (Relatives.node_mem_nodes hx)).high).trans (h.linked x hx)
  alone := h.alone
  nodup := h.nodup
  sound := hLoad.sound
  moves := h.moves.trans (hLoad.moves.mono (fun _ => h.low_next) fun _ => False.elim)
  fit := h.fit.mono fun _ hn => hn.mono hLoad.moves.next
  owned d hd := by
    obtain hd | hUnit := hLoad.owned d hd
    · obtain hd | hd | ⟨u, hu, hStatus, hOf⟩ := h.owned d hd
      · exact .inl hd
      · exact .inr (.inl hd)
      · exact .inr (.inr ⟨u, hLoad.moves.mem_units hu (by simp [hStatus]), hStatus, hOf⟩)
    · exact .inr (.inr hUnit)
  others u hu r' hr' := by
    obtain hu | ⟨_, hClear⟩ := hLoad.moves.unit_cases hu
    · exact h.others u hu r' hr'
    · have hHigh : w.store.next ≤ r'.top.ann.id :=
        Nat.not_lt.1 ((hClear r' hr').child (k := .top r'.top) (by simp [Node.children])).self
      have hTop : r.top.ann.id < w.store.next :=
        (h.fit.child (k := .top r.top) (by simp [Node.children])).self.high
      have hFirst := h.first_lt
      exact .inr ⟨by omega, by omega⟩
  declared := by
    obtain ⟨d, hd, hOwn⟩ := h.declared
    exact ⟨d, hLoad.moves.prefix_tops.subset hd, hOwn⟩
  body hp path key n symbol hBody hEntry := by
    exact h.body hp hBody (hLoad.moves.bodies hp (h.hosted hp hBody) hEntry)
  meant hp i role symbols hi hSymbols := by
    obtain ⟨n, hn, rfl⟩ := Node.exists_of_mem_referrals hi
    exact h.meant hp hi (hLoad.moves.refs hp _ (h.fit n hn).high ▸ hSymbols)

end Underway

end Assay
