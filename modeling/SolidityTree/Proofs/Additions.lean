import SolidityTree.Proofs.Reading

/-!
# Additive runs

An additive run gives out ids, registers and makes nodes, copies trees and reads output, in
transactions nested as one likes.  It forgets no node that was there before and changes none, but
for its parent mark: a new node adopts the children that its payload names, and these may be old.
So what it leaves differs from what it began with by new nodes, and by marks that name new nodes
(`Forest.Adds`).

Both ends of a transaction inside the run leave such a difference (`Adds.commit`, `Adds.rollback`),
whatever marks the nodes carry by then; and the rollback at its end takes the difference away, since
no mark of a consistent forest names a node that is not there (`Adds.rollback_eq`).

Main statement: `Additions.rollback_after_begin`.
-/

namespace SolidityTree

namespace Forest

variable {f g h : Forest} {k : NodeId} {made : List NodeId}

/-! ### Marks that name no node -/

/-- A node without its parent mark, if that names no node of the forest. -/
def strip (f : Forest) (n : Node) : Node :=
  if n.parent?.all f.contains then n else { n with parent? := none }

theorem strip_of_root {n : Node} (hn : n.parent? = none) : f.strip n = n :=
  if_pos (by rw [hn]; rfl)

theorem strip_of_contains {n : Node} {p : NodeId} (hn : n.parent? = some p) (hp : f.contains p) :
    f.strip n = n :=
  if_pos (by rw [hn]; exact hp)

theorem strip_of_not_contains {n : Node} {p : NodeId} (hn : n.parent? = some p)
    (hp : ¬ f.contains p) : f.strip n = { n with parent? := none } :=
  if_neg (by rw [hn]; exact hp)

/-- A consistent forest has no such marks. -/
theorem Consistent.strip_eq_self (hf : f.Consistent) {n : Node} (hn : f.get? k = some n) :
    f.strip n = n := by
  cases hp : n.parent? with
  | none => exact strip_of_root hp
  | some p => exact strip_of_contains hp (hf.contains_parent (parent?_of_get? hn ▸ hp))

/-- A mark that is taken away by the larger forest would be taken away by the smaller one, too. -/
theorem strip_strip (hle : ∀ {k}, f.contains k → g.contains k) (n : Node) :
    f.strip (g.strip n) = f.strip n := by
  cases hp : n.parent? with
  | none => rw [strip_of_root hp]
  | some p =>
    by_cases hg : g.contains p
    · rw [strip_of_contains hp hg]
    · rw [strip_of_not_contains hp hg, strip_of_not_contains hp fun hf => hg (hle hf)]
      exact strip_of_root rfl

/-- A rollback leaves the nodes that were there before, without the marks that have come to name no
node. -/
theorem Journaled.get?_rollback (h : Journaled f g made) (hk : f.contains k) :
    g.rollback.get? k = (g.get? k).map f.strip := by
  have hold : (g.erase made).contains = f.contains := by
    funext c
    rw [Bool.eq_iff_iff, contains_erase, h.contains_iff]
    exact ⟨fun ⟨hnot, hc⟩ => hc.resolve_right hnot, fun hc => ⟨fun hin => h.fresh c hin hc, .inl hc⟩⟩
  rw [Forest.get?_rollback h.transactions_eq, get?_erase, if_neg fun hin => h.fresh k hin hk, hold]
  rfl

/-! ### Additions -/

/-- New nodes were noted, and no old node was changed, but for marks that name new nodes. -/
structure Adds (f g : Forest) : Prop where
  journaled : ∃ made, Journaled f g made
  strip_get? : ∀ {k}, f.contains k → (g.get? k).map f.strip = (f.get? k).map f.strip

theorem adds_begin (f : Forest) : Adds f f.begin where
  journaled := ⟨[], journaled_begin f⟩
  strip_get? _ := rfl

theorem Extends.adds (hg : Extends f g) : Adds f g where
  journaled := hg.journaled
  strip_get? hk := by rw [hg.get?_eq hk]

namespace Adds

theorem contains_of_contains (hg : Adds f g) (hk : f.contains k) : g.contains k := by
  obtain ⟨made, hmade⟩ := hg.journaled
  exact hmade.contains_of_contains hk

theorem nextId (hg : Adds f g) : Adds f g.nextId.2 := by
  obtain ⟨made, hmade⟩ := hg.journaled
  exact ⟨⟨made, hmade.congr rfl rfl fun _ => Iff.rfl⟩, hg.strip_get?⟩

/-- Any node may be registered: an old child gets a mark that names a new node. -/
theorem register (hg : Adds f g) {n : Node} (hregister : g.register n = .ok h) : Adds f h := by
  obtain ⟨made, hmade⟩ := hg.journaled
  have hself := not_mem_children_of_register hregister
  obtain ⟨hfresh, hdetached, hinsert⟩ := register_eq_ok hregister
  have hnew : ¬ f.contains n.id := fun hold => hfresh (hg.contains_of_contains hold)
  refine ⟨⟨_, hmade.register hregister⟩, fun {k} hk => ?_⟩
  have hid : k ≠ n.id := fun heq => hnew (heq ▸ hk)
  rw [hinsert, get?_insert n hself, if_neg hid, ← hg.strip_get? hk]
  split
  · next hchild =>
    -- the child had no mark, and the one that it gets is taken away again
    obtain ⟨m, hm⟩ := contains_iff_get?.1 (hg.contains_of_contains hk)
    have hroot : m.parent? = none := by
      rw [← parent?_of_get? hm]
      exact (hdetached k hchild).2
    have hgone : f.strip { m with parent? := some n.id } = { m with parent? := none } :=
      strip_of_not_contains rfl hnew
    rw [hm, Option.map_some, Option.map_some, Option.map_some, hgone, strip_of_root hroot, ← hroot]
  · rfl

/-- A transaction inside the first one is committed. -/
theorem commit (hg : Adds f g) (hh : Adds g h) : Adds f h.commit := by
  obtain ⟨made, hmade⟩ := hg.journaled
  obtain ⟨made', hmade'⟩ := hh.journaled
  refine ⟨⟨_, hmade.commit hmade'⟩, fun {k} hk => ?_⟩
  have hle : ∀ {k}, f.contains k → g.contains k := hg.contains_of_contains
  have hstrip : ∀ n?, Option.map f.strip n? = (Option.map g.strip n?).map f.strip := fun n? => by
    cases n? with
    | none => rfl
    | some n => exact congrArg some (strip_strip hle n).symm
  calc (h.commit.get? k).map f.strip
      = ((h.get? k).map g.strip).map f.strip := by rw [get?_commit, hstrip]
    _ = ((g.get? k).map g.strip).map f.strip := by rw [hh.strip_get? (hle hk)]
    _ = (f.get? k).map f.strip := by rw [← hstrip, hg.strip_get? hk]

/-- A transaction inside the first one is rolled back. -/
theorem rollback (hg : Adds f g) (hh : Adds g h) : Adds f h.rollback := by
  obtain ⟨made, hmade⟩ := hg.journaled
  obtain ⟨made', hmade'⟩ := hh.journaled
  refine ⟨⟨made, hmade.rollback hmade'⟩, fun {k} hk => ?_⟩
  -- what the rollback takes away of the marks is no matter
  rw [hmade'.get?_rollback (hg.contains_of_contains hk), hh.strip_get? (hg.contains_of_contains hk),
    Option.map_map, ← hg.strip_get? hk]
  exact congrArg (Option.map · (g.get? k)) (funext (strip_strip hg.contains_of_contains))

/-- **A rollback takes additions back** to the consistent forest that they began with. -/
theorem rollback_eq (hf : f.Consistent) (hg : Adds f g) : g.rollback = f := by
  obtain ⟨made, hmade⟩ := hg.journaled
  have heq := Forest.rollback_eq hmade.transactions_eq
  refine ext_get? ?_ (fun k => ?_) (by rw [heq]) (by rw [heq]) (by rw [heq])
  · rw [heq]
    exact hmade.id_eq
  · by_cases hk : f.contains k
    · obtain ⟨n, hn⟩ := contains_iff_get?.1 hk
      rw [hmade.get?_rollback hk, hg.strip_get? hk, hn, Option.map_some, hf.strip_eq_self hn]
    · rw [get?_eq_none_of_not_contains hk,
        get?_eq_none_of_not_contains fun h => hk (hmade.contains_rollback_iff.1 h)]

end Adds

/-- What failures leave are additions, even where the old nodes are not consistent. -/
theorem aftermath_adds (f : Forest) : Aftermath f (Adds f) where
  of_extends hg := hg.adds
  of_rollback hg hh := hg.adds.rollback hh.adds

end Forest

open Forest

variable {f g : Forest}

/-! ### Makers -/

/-- A maker of nodes with its arguments.  The makers of single kinds that are not listed are
`Run.make` of a payload, whatever the forest. -/
inductive Maker where
  | make (src : Span) (payload : Payload)
  | makeWith (children : List Handle) (payload : Payload)
  | identifierFor (declaration : NodeId)
  | assignment (operator : String) (left right : NodeId)
  | variableDeclaration (name : String) (typeName scope : NodeId)

namespace Maker

/-- The run that a maker names. -/
def run : Maker → Run Handle
  | make src payload => Run.makeAt src payload
  | makeWith children payload => Run.makeWith children payload
  | identifierFor declaration => Run.identifierFor declaration
  | assignment operator left right => Run.assignment operator left right
  | variableDeclaration name typeName scope => Run.variableDeclaration name typeName scope

end Maker

namespace Run

variable {I : Forest → Prop}

/-- A maker makes one node, if it does not fail before. -/
theorem Additive.keeps_maker (hI : Additive I) (m : Maker) : Keeps I m.run := by
  intro f hf
  cases m with
  | make src payload => exact hI.keeps_makeAt src payload f hf
  | makeWith children payload =>
    have hchecks : Keeps I (children.forM checkOwned) := keeps_forM fun c _ => keeps_checkOwned c
    exact (hchecks f hf).andThen fun _ g hg => hI.keeps_makeAt .unknown payload g hg
  | identifierFor declaration =>
    refine wp_bind (wp_ask (fun n _ => ?_) hf)
    split
    · exact hI.keeps_makeAt _ _ f hf
    · exact wp_throw hf
  | assignment operator left right => exact wp_bind (wp_get (hI.keeps_makeAt _ _ f hf))
  | variableDeclaration name typeName scope =>
    exact wp_bind (wp_get (hI.keeps_makeAt _ _ f hf))

end Run

theorem Forest.additive_adds (f : Forest) : Run.Additive (Adds f) where
  nextId hg := hg.nextId
  register hg h := hg.register h

/-- A read adds to whatever forest it finds, if it fails as well as if it succeeds. -/
theorem Run.keeps_read_adds (config : Config) (output : Json) :
    Run.Keeps (Adds f) (Run.read config output) := by
  intro g hg
  refine wp_bind (wp_ask (fun roots _ => wp_transaction ?_) hg)
  -- the nodes that `g` adds to `f` are old ones here
  have hread := wp_readUnits config (aftermath_adds g) roots (extends_begin g)
  exact hread.mono (fun _ _ hh => hg.commit hh.adds) fun _ hh => hg.rollback hh

/-! ### Additive runs as data -/

/-- What an additive run does at once. -/
inductive Addition where
  | nextId
  | register (n : Node)
  | make (m : Maker)
  | copy (root : Handle)
  | read (config : Config) (output : Json)

/-- The run that an addition names; what it answers is dropped. -/
def Addition.run : Addition → Run Unit
  | nextId => do let _ ← Run.nextId
  | register n => do let _ ← Run.register n
  | make m => do let _ ← m.run
  | copy root => do let _ ← Run.copy root
  | read config output => do let _ ← Run.read config output

theorem Addition.keeps (a : Addition) : Run.Keeps (Adds f) a.run := by
  intro g hg
  have hI := additive_adds f
  cases a with
  | nextId => exact (hI.keeps_nextId g hg).andThen fun _ _ h => Run.wp_pure h
  | register n => exact (hI.keeps_register n g hg).andThen fun _ _ h => Run.wp_pure h
  | make m => exact (hI.keeps_maker m g hg).andThen fun _ _ h => Run.wp_pure h
  | copy root => exact (hI.keeps_copy root g hg).andThen fun _ _ h => Run.wp_pure h
  | read config output =>
    exact (Run.keeps_read_adds config output g hg).andThen fun _ _ h => Run.wp_pure h

/-- Additions one after another, each taken whatever came of the one before, with transactions among
them that are committed or rolled back. -/
inductive Additions where
  | done
  | add (a : Addition) (rest : Additions)
  | group (inside : Additions) (commits : Bool) (rest : Additions)

namespace Additions

/-- The forest that additions leave. -/
def after : Additions → Forest → Forest
  | done, f => f
  | add a rest, f => rest.after (a.run.after f)
  | group inside commits rest, f =>
    let g := inside.after f.begin
    rest.after (if commits then g.commit else g.rollback)

theorem adds_after (as : Additions) (hg : Adds f g) : Adds f (as.after g) := by
  -- on the additions; those of a transaction add to the forest in which it was begun
  induction as generalizing f g with
  | done => exact hg
  | add a rest ih => exact ih ((Addition.keeps a).after hg)
  | group inside commits rest ihinside ih =>
    have hinside : Adds g (inside.after g.begin) := ihinside (adds_begin g)
    cases commits with
    | true => exact ih (hg.commit hinside)
    | false => exact ih (hg.rollback hinside)

/-- **A rollback undoes every additive run.** -/
theorem rollback_after_begin (hf : f.Consistent) (as : Additions) :
    (as.after f.begin).rollback = f :=
  (as.adds_after (adds_begin f)).rollback_eq hf

/-- A block that adopts the identifier is made and rolled back; the next one, which gets the same id
and adopts the identifier again, is committed; then a read fails. -/
def adoptions : Additions :=
  let adopt := add (.make (.make .unknown (.block ⟨none, none⟩ [2]))) done
  .group adopt false (.group adopt true (.add (.read .standard Run.halfReadable) .done))

/-- The identifier comes back without a parent. -/
theorem rollback_adoptions_blockAndName :
    blockAndName.Consistent ∧ (adoptions.after blockAndName.begin).parent? 2 = some 3 ∧
      (adoptions.after blockAndName.begin).rollback = blockAndName :=
  ⟨consistent_blockAndName, by decide +kernel, rollback_after_begin consistent_blockAndName _⟩

end Additions

end SolidityTree
