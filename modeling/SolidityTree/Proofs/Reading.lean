import SolidityTree.Proofs.Extension
import SolidityTree.Proofs.Schemas
import SolidityTree.Reading

/-!
# Reading is atomic

Whatever a read does to a forest before it succeeds or fails is an extension of it: records become
new nodes (`Run.givesNew_convert`), and the passes change new nodes only, since they start at the
units just read (`Pass.wp_runAll`).  The expansion of inline assembly opens a transaction of its
own, and its end is an extension in either case if the forest is consistent.  So the rollback of a
read that fails restores the forest (`Run.read_eq_of_error`).
-/

namespace SolidityTree

open Forest

variable {f g : Forest} {id : NodeId}

namespace Run

/-! ### Conversion -/

/-- A run leaves an extension, and gives the id of a new node if it succeeds. -/
def GivesNew (f : Forest) (run : Run NodeId) : Prop :=
  ∀ g, Extends f g → wp run (fun id g' => Extends f g' ∧ ¬ f.contains id) (Extends f) g

/-- A record has an id, or takes the next one. -/
theorem wp_idOf {r : Json} {I E : Forest → Prop} (hg : I g) (hnext : I g.nextId.2) (hfail : E g) :
    wp (idOf r) (fun _ => I) E g := by
  refine wp_bind (wp_ask (fun id? _ => ?_) hfail)
  cases id? with
  | none => exact wp_nextId hnext
  | some id => exact wp_pure hg

/-- **Conversion adds nodes and touches no other.** -/
theorem givesNew_convert (config : Config) (schema : Schema) (levels : Nat) (r : Json) :
    GivesNew f (convert config schema levels r) := by
  -- on the levels that are left: the records below are converted with one level less
  induction levels generalizing r with
  | zero => exact fun g hg => wp_throw hg
  | succ levels ih =>
    intro g hg
    refine wp_bind (wp_ask (fun (kind, draft) hdraft => ?_) hg)
    -- an id of the record's own need not be free; then registration fails below
    refine (wp_idOf hg hg.nextId hg).andThen fun id g hg => wp_bind (wp_ask (fun src _ => ?_) hg)
    -- the ids that the draft is given are those of new nodes
    let New (trace : Draft.Trace) (g : Forest) : Prop :=
      Extends f g ∧ ∀ c ∈ trace.map Prod.snd, ¬ f.contains c
    have hrecord : ∀ r trace g, New trace g → wp (convert config schema levels r)
        (fun id g' => New (trace ++ [(r, id)]) g') (Extends f) g := by
      intro r trace g ⟨hg, hids⟩
      refine (ih r g hg).mono (fun id g' hg' => ⟨hg'.1, fun c hc => ?_⟩) fun _ hE => hE
      rw [List.map_append] at hc
      rcases List.mem_append.1 hc with hc | hc
      · exact hids c hc
      · exact List.mem_singleton.1 hc ▸ hg'.2
    have hrun := Draft.wp_run New hrecord (fun _ _ h => h.1) (Schema.wp_draft hdraft) ⟨hg, by simp⟩
    refine hrun.andThen fun payload g ⟨trace, ⟨_, htakes⟩, hg, hids⟩ => ?_
    refine wp_bind (wp_register (fun g' hregister => wp_pure ?_) hg)
    exact hg.register hregister fun c hc => hids c (htakes.listsSome.subset hc)

/-- All that conversion does is giving out ids and registering nodes. -/
theorem Additive.keeps_convert {I : Forest → Prop} (hI : Additive I) (config : Config)
    (schema : Schema) (levels : Nat) (r : Json) : Keeps I (convert config schema levels r) := by
  induction levels generalizing r with
  | zero => exact fun g hg => wp_throw hg
  | succ levels ih =>
    intro g hg
    refine wp_bind (wp_ask (fun (kind, draft) hdraft => ?_) hg)
    refine (wp_idOf hg (hI.nextId hg) hg).andThen fun id g hg =>
      wp_bind (wp_ask (fun src _ => ?_) hg)
    have hrun := Draft.wp_run (fun _ => I) (fun r _ g hg => ih r g hg) (fun _ _ hg => hg)
      (Schema.wp_draft hdraft) hg
    refine hrun.andThen fun payload g ⟨_, _, hg⟩ => ?_
    exact (hI.keeps_register _ g hg).andThen fun _ g hg => wp_pure hg

end Run

/-! ### Failures -/

/-- A property of what failures leave: extensions have it, and so does what the rollback of a
transaction inside one leaves. -/
structure Forest.Aftermath (f : Forest) (E : Forest → Prop) : Prop where
  of_extends : ∀ {g}, Extends f g → E g
  of_rollback : ∀ {g h}, Extends f g → Extends g h → E h.rollback

/-- Where the old nodes are consistent, a failure leaves an extension, too. -/
theorem Forest.Aftermath.of_consistent (hf : f.Consistent) : Aftermath f (Extends f) where
  of_extends hg := hg
  of_rollback hg hh := hg.rollback hf hh

/-! ### Passes -/

namespace Pass

open Run

variable {E : Forest → Prop}

/-- What passes keep when they mend nodes of some sort, they keep when they go over units, if these
are of the sort and so are the nodes of their trees. -/
theorem wp_runAll_of {I : Forest → Prop} {S : NodeId → Prop} {passes : List Pass} {config : Config}
    (hwalk : ∀ g, I g → ∀ u, S u → ∀ k ∈ g.walk u, S k)
    (hprocess : ∀ p ∈ passes, ∀ k, S k → ∀ g n, I g → g.get? k = some n → p.supports n →
      wp (p.process config k) (fun _ => I) E g)
    {units : List NodeId} (hunits : ∀ u ∈ units, S u) (hg : I g) :
    wp (runAll passes config units) (fun _ => I) E g := by
  refine wp_forM (fun p hp g hg => ?_) hg
  refine wp_forM (fun unit hunit g hg => wp_bind (wp_get ?_)) hg
  -- the walk is taken once, but it is the sort of its nodes that counts
  refine wp_forM (fun k hk g' hg' => wp_bind (wp_get ?_)) hg
  split
  · next hsupports =>
    obtain ⟨n, hn, hn'⟩ := (Option.any_eq_true _ _).1 hsupports
    have hk := hwalk g hg unit (hunits unit hunit) k hk
    exact (hprocess p hp k hk g' n hg' hn hn').andThen fun _ g'' hg'' => wp_pure hg''
  · exact wp_pure hg'

/-- A pass leaves an extension when it mends a new node. -/
def MendsNew (p : Pass) : Prop :=
  ∀ (config : Config) {f : Forest} {E : Forest → Prop} {id : NodeId}, Aftermath f E →
    ¬ f.contains id → ∀ g, Extends f g → wp (p.process config id) (fun _ => Extends f) E g

theorem wp_runAll {passes : List Pass} (hpasses : ∀ p ∈ passes, p.MendsNew) (config : Config)
    (hE : Aftermath f E) {units : List NodeId} (hunits : ∀ u ∈ units, ¬ f.contains u)
    (hg : Extends f g) : wp (runAll passes config units) (fun _ => Extends f) E g :=
  wp_runAll_of (fun _ hg _ hu _ hk => hg.not_contains_of_mem_walk hu hk)
    (fun p hp _ hid g _ hg _ _ => hpasses p hp config hE hid g hg) hunits hg

end Pass

/-! ### References -/

theorem Builtin.mendsNew : Builtin.pass.MendsNew := by
  intro config f E id hE hid g hg
  have hfail := hE.of_extends hg
  refine Run.wp_bind (Run.wp_ask (fun n _ => Run.wp_bind (Run.wp_get ?_)) hfail)
  split
  · exact Run.wp_bind (Run.wp_modify (Run.wp_pure
      (hg.modifyPayload_of_eq hid fun p => p.children_setReferenced _)))
  · exact Run.wp_pure hg

/-! ### Inline assembly -/

namespace Assembly

theorem wp_adopt (hg : Extends f g) (hid : ¬ f.contains id) {yul : NodeId}
    (hyul : ¬ f.contains yul) :
    Run.wp (adopt id yul) (fun _ => Extends f) (Extends f) g := by
  refine Run.wp_bind (Run.wp_get ?_)
  split
  · exact Run.wp_throw hg
  · next references payload h =>
    obtain ⟨n, hn, hexpand⟩ := Option.bind_eq_some_iff.1 h
    refine Run.wp_bind (Run.wp_modify (Run.wp_pure (hg.attach hid hyul fun c hc => ?_)))
    rcases List.mem_cons.1 (Payload.children_expand?_subset hexpand hc) with rfl | hc
    · exact hyul
    · exact hg.new_of_get? hid hn c hc

theorem children_link (references : List ExternalReference) (n : Node) :
    (link references n).children = n.children := by
  unfold link
  split
  · split
    · rfl
    · split <;> rfl
  · rfl

theorem mendsNew : pass.MendsNew := by
  intro config f E id hE hid g hg
  refine Run.wp_bind (Run.wp_get ?_)
  split
  · exact Run.wp_pure hg
  · next tree _ =>
    -- the inner transaction extends `g`, and what either of its ends makes of that is accounted for
    refine Run.wp_bind (Run.wp_transaction ?_)
    refine (Run.givesNew_convert config .modern config.maxDepth tree g.begin (extends_begin g)).mono
      (fun yul h hh => ?_) fun h hh => hE.of_rollback hg hh
    obtain ⟨hh, hyul⟩ := hh
    have hnew : ¬ f.contains yul := fun hold => hyul (hg.contains_of_contains hold)
    refine ((wp_adopt (hg.commit hh) hid hnew).mono (fun _ _ h => h) fun _ => hE.of_extends).andThen
      fun references g' hg' => ?_
    refine Run.wp_bind (Run.wp_get ?_)
    have hlink : Run.Keeps (Extends f) ((g'.walk yul).forM fun n =>
        modify (Forest.modify · n (link references))) := by
      refine Run.keeps_forM fun k hk g'' hg'' => Run.wp_modify ?_
      refine hg''.modify (hg'.not_contains_of_mem_walk hnew hk) fun n hn => ?_
      rw [children_link]
      exact hg''.new_of_get? (hg'.not_contains_of_mem_walk hnew hk) hn
    exact ((hlink g' hg').mono (fun _ _ h => h) fun _ => hE.of_extends).andThen
      fun _ h hh => Run.wp_pure hh

end Assembly

/-! ### Documentation -/

namespace Run

variable {doc : Handle}

theorem keeps_attachDocumentation_new (hid : ¬ f.contains id) (hdoc : ¬ f.contains doc.id) :
    Keeps (Extends f) (attachDocumentation id doc) := by
  intro g hg
  refine wp_bind (wp_ask (fun old hold => ?_) hg)
  refine wp_bind (wp_ask (fun _ _ => ?_) hg)
  refine wp_bind (wp_ask (fun n hn => ?_) hg)
  split
  · -- a container
    have hg' := hg.modifyPayload_of_eq hid (Payload.children_setDocString · none)
    refine wp_bind (wp_modify ?_)
    split
    · exact wp_edit (fun h hreplace => hg'.replace hid hdoc hreplace) hg'
    · exact wp_edit (fun h hprepend => hg'.prepend hid hdoc hprepend) hg'
  · -- a kind with a field for documentation, which may hold a node already
    obtain ⟨-, -, -, rfl⟩ := documentationOf_eq_ok hold
    have hg' : Extends f (g.modifyPayload id (·.setDocumentation (some (.node doc.id)))) := by
      refine hg.modifyPayload hid fun m hm c hc => ?_
      rcases List.mem_append.1 (Payload.children_setDocumentation_subset _ _ hc) with hc | hc
      · exact List.mem_singleton.1 hc ▸ hdoc
      · exact hg.new_of_get? hid hm c hc
    refine wp_bind (wp_modify ?_)
    split
    · next old hd =>
      have hnew := hg.new_of_mem hid (mem_children_of_documentation? hd)
      exact wp_bind (wp_modify (wp_modify ((hg'.setParent hnew none).setParent hdoc (some id))))
    · exact wp_bind (wp_pure (wp_modify (hg'.setParent hdoc (some id))))

theorem keeps_attachDangling_new (hid : ¬ f.contains id) (hdoc : ¬ f.contains doc.id) :
    Keeps (Extends f) (attachDangling id doc) := by
  intro g hg
  refine wp_bind (wp_ask (fun old _ => ?_) hg)
  refine wp_bind (wp_ask (fun _ _ => ?_) hg)
  refine wp_bind (wp_ask (fun n _ => ?_) hg)
  have hg' := hg.modifyPayload_of_eq hid (Payload.children_setDanglingDocString · none)
  refine wp_bind (wp_modify ?_)
  split
  · exact wp_edit (fun h hreplace => hg'.replace hid hdoc hreplace) hg'
  · exact wp_edit (fun h happend => hg'.append hid hdoc happend) hg'

end Run

namespace Comments

theorem wp_make (hg : Extends f g) (owner : NodeId) (found : Found) :
    Run.wp (make owner found) (fun doc g' => Extends f g' ∧ ¬ f.contains doc.id) (Extends f) g := by
  refine Run.wp_bind (Run.wp_get (Run.wp_bind (Run.wp_nextId (Run.wp_register ?_ hg.nextId))))
  intro h hregister
  exact hg.nextId.register hregister fun c hc => by cases hc

theorem keeps_recoverPreceding (source : List Char) (hid : ¬ f.contains id) :
    Run.Keeps (Extends f) (recoverPreceding source id) := by
  intro g hg
  refine Run.wp_bind (Run.wp_get ?_)
  split
  · exact Run.wp_pure hg
  · split
    · exact Run.wp_pure hg
    · next found _ =>
      refine (wp_make hg id found).andThen fun doc g' ⟨hg', hdoc⟩ => ?_
      exact (Run.keeps_attachDocumentation_new hid hdoc g' hg').andThen fun _ h hh =>
        Run.wp_pure hh

theorem keeps_recoverDangling (source : List Char) (hid : ¬ f.contains id) :
    Run.Keeps (Extends f) (recoverDangling source id) := by
  intro g hg
  refine Run.wp_bind (Run.wp_ask (fun n _ => Run.wp_bind (Run.wp_get ?_)) hg)
  split
  · exact Run.wp_pure hg
  · split
    · exact Run.wp_pure hg
    · next found _ =>
      refine (wp_make hg id found).andThen fun doc g' ⟨hg', hdoc⟩ => ?_
      exact (Run.keeps_attachDangling_new hid hdoc g' hg').andThen fun _ h hh => Run.wp_pure hh

theorem mendsNew : pass.MendsNew := by
  intro config f E id hE hid g hg
  refine Run.wp.mono (E := Extends f) (Run.wp_bind (Run.wp_get ?_)) (fun _ _ h => h)
    fun _ => hE.of_extends
  split
  · exact Run.wp_pure hg
  · next source _ =>
    refine (keeps_recoverPreceding source hid g hg).andThen fun _ g' hg' => ?_
    exact (keeps_recoverDangling source hid g' hg').andThen fun _ h hh => Run.wp_pure hh

end Comments

/-! ### Reading -/

theorem Pass.mendsNew_standard : ∀ p ∈ Pass.standard, p.MendsNew := by
  intro p hp
  simp only [Pass.standard, List.mem_cons, List.not_mem_nil, or_false] at hp
  rcases hp with rfl | rfl | rfl
  · exact Assembly.mendsNew
  · exact Builtin.mendsNew
  · exact Comments.mendsNew

namespace Run

open Output

/-- An output with roots is read in a transaction. -/
theorem read_eq_transaction {config : Config} {output : Json} {roots : List Root}
    (h : Output.roots output = .ok roots) :
    read config output = transaction (readUnits config roots) := by
  funext f
  have hask : ask (fun _ => Output.roots output) f = .ok roots f := by rw [ask, h]
  exact bind_of_ok hask _

/-- A single unit needs no order. -/
theorem readUnits_singleton (config : Config) (root : Root) :
    readUnits config [root] = do
      let id ← readRoot config root
      if config.postprocess then postprocess config [id]
      return [id] := by
  simp [readUnits, readRoots]

/-- What is left of a read of units after their conversion. -/
theorem readUnits_eq_ok {config : Config} {roots : List Root} {units : List NodeId} :
    readUnits config roots f = .ok units g ↔ ∃ ids h, readRoots config roots f = .ok ids h ∧
      (ids.mergeSort fun a b => placeOf h a ≤ placeOf h b) = units ∧
        if config.postprocess then postprocess config units h = .ok () g else h = g := by
  constructor
  · intro hread
    obtain ⟨ids, h, hids, hrest⟩ := bind_eq_ok.1 hread
    obtain ⟨f', f'', hget, hrest⟩ := bind_eq_ok.1 hrest
    cases hget
    refine ⟨ids, h, hids, ?_⟩
    dsimp only at hrest
    split at hrest
    · next hpasses =>
      obtain ⟨⟨⟩, f', hpost, hend⟩ := bind_eq_ok.1 hrest
      cases hend
      exact ⟨rfl, by rwa [if_pos hpasses]⟩
    · next hpasses =>
      cases hrest
      exact ⟨rfl, by rw [if_neg hpasses]⟩
  · rintro ⟨ids, h, hids, rfl, hrest⟩
    refine bind_eq_ok.2 ⟨ids, h, hids, bind_eq_ok.2 ⟨h, h, rfl, ?_⟩⟩
    dsimp only
    split at hrest
    · next hpasses =>
      rw [if_pos hpasses]
      exact bind_eq_ok.2 ⟨(), g, hrest, rfl⟩
    · next hpasses =>
      rw [if_neg hpasses, hrest]
      rfl

theorem givesNew_readRoot (config : Config) (root : Root) : GivesNew f (readRoot config root) := by
  intro g hg
  unfold readRoot
  split
  · exact wp_throw hg
  · next schema _ =>
    refine (givesNew_convert config schema _ root.record g hg).andThen fun id g' ⟨hg', hid⟩ => ?_
    refine wp_bind (wp_get ?_)
    have hplaced := hg'.modifyPayload_of_eq hid (Payload.children_mapUnit · (placed root))
    dsimp only
    split
    · exact wp_bind (wp_throw hg')
    · exact wp_bind (wp_modify (wp_pure ⟨hplaced, hid⟩))

theorem wp_readRoots (config : Config) (roots : List Root) (hg : Extends f g) :
    wp (readRoots config roots) (fun ids g' => Extends f g' ∧ ∀ id ∈ ids, ¬ f.contains id)
      (Extends f) g := by
  induction roots generalizing g with
  | nil => exact wp_pure ⟨hg, by simp⟩
  | cons root rest ih =>
    refine (givesNew_readRoot config root g hg).andThen fun id g' ⟨hg', hid⟩ => ?_
    refine (ih hg').andThen fun ids g'' ⟨hg'', hids⟩ => wp_pure ⟨hg'', ?_⟩
    exact List.forall_mem_cons.2 ⟨hid, hids⟩

theorem wp_readUnits {E : Forest → Prop} (config : Config) (hE : Aftermath f E) (roots : List Root)
    (hg : Extends f g) : wp (readUnits config roots) (fun _ => Extends f) E g := by
  have hread := (wp_readRoots config roots hg).mono (fun _ _ h => h) fun _ => hE.of_extends
  refine hread.andThen fun ids g' ⟨hg', hids⟩ => ?_
  refine wp_bind (wp_get ?_)
  dsimp only
  split
  · -- the passes go over the units in the order of their places
    have hunits : ∀ u ∈ ids.mergeSort fun a b => placeOf g' a ≤ placeOf g' b, ¬ f.contains u :=
      fun u hu => hids u (List.mem_mergeSort.1 hu)
    exact (Pass.wp_runAll Pass.mendsNew_standard config hE hunits hg').andThen
      fun _ g'' hg'' => wp_pure hg''
  · exact wp_pure hg'

theorem keeps_readUnits (config : Config) (hf : f.Consistent) (roots : List Root) :
    Keeps (Extends f) (readUnits config roots) :=
  fun _ hg => wp_readUnits config (.of_consistent hf) roots hg

/-- **A read that fails leaves the forest as it was.** -/
theorem read_eq_of_error (hf : f.Consistent) {config : Config} {output : Json} {fault : Fault}
    (h : read config output f = .error fault g) : g = f := by
  have hread : wp (read config output) (fun _ _ => True) (fun g => g = f) f := by
    -- an output without roots fails before the transaction begins
    refine wp_bind (wp_ask (fun roots _ => ?_) rfl)
    refine wp_transaction ((keeps_readUnits config hf roots f.begin (extends_begin f)).mono
      (fun _ _ _ => trivial) fun g hg => hg.rollback_eq hf)
  have hend := wp_error hread h
  exact hend

/-- A unit with two statements, the second of which is of no kind. -/
def halfReadable : Json :=
  .object [("nodeType", .string "SourceUnit"), ("nodes", .array
    [.object [("nodeType", .string "Break")], .object [("nodeType", .string "Nowhere")]])]

/-- The first statement has become a node when the second one fails. -/
theorem read_halfReadable_eq_error :
    ∃ fault, read .standard halfReadable blockAndName = .error fault blockAndName := by
  have hfails : wp (read .standard halfReadable) (fun _ _ => False) (fun _ => True) blockAndName :=
    trivial
  cases h : read .standard halfReadable blockAndName with
  | ok units g => exact (wp_ok hfails h).elim
  | error fault g => exact ⟨fault, by rw [read_eq_of_error consistent_blockAndName h]⟩

end Run

end SolidityTree
