import SolidityTree.Proofs.Clashes
import SolidityTree.Proofs.Counter

/-!
# The ids of visited records

A read visits records: those of the units and those of the Yul code that it expands, each before the
records below it.  At a visit the id of the node is settled: it is the one that the record carries,
or else the next one of the forest.  The node is registered when the records below have become
nodes.

The visits of a run are listed by a function of the forest in which it starts (`Visits`), put
together in the same way as the run itself.  What the ids of visits have to do with the outcome is
shown for each way in which runs are put together (`Run.Clashes`, `Run.Numbers`): a run that
succeeds has registered the ids of its visits, which were all different and free, and a run that
fails because an id is taken has visited two records with the same id, or one with an id that was
taken before.

Where there is room for all of them (`Forest.RoomFor`), the ids that are given out go up from the
counter, so no two visits are given the same id.  The records that are visited later have not been
seen then, and one of them may carry the very id that was given out.  Where the ids in the records
differ and are free, a read fails because an id is taken only in this way, or if the counter has
gone round all words and gives out an id twice (`Run.idCollision_read`).
-/

namespace SolidityTree

open Forest

/-! ### Visits -/

/-- A record that is visited, and the id that its node is to get. -/
structure Visit where
  record : Json
  id : NodeId

/-- The id that the record itself carries. -/
def Visit.own? (v : Visit) : Option NodeId := (Record.id? v.record).toOption.join

/-- The visits of a run that starts in a given forest, up to its failure if it fails. -/
abbrev Visits := Forest → List Visit

variable {α β : Type} {f g h : Forest} {k : NodeId} {config : Config} {v : Visit}
  {vs ws : List Visit}

namespace Visits

/-- Those of a run that visits nothing. -/
def idle : Visits := fun _ => []

/-- The visits of a run, and those of what goes on from it if it succeeds. -/
def andThen (visits : Visits) (run : Run α) (next : α → Visits) : Visits := fun f =>
  visits f ++ match run f with
    | .ok a g => next a g
    | .error _ _ => []

/-- The visits of a loop. -/
def loop {ι : Type} (body : ι → Run PUnit) (visits : ι → Visits) : List ι → Visits
  | [] => idle
  | i :: rest => (visits i).andThen (body i) fun _ => loop body visits rest

variable {visits : Visits} {run : Run α} {next : α → Visits}

theorem andThen_of_ok {a : α} (h : run f = .ok a g) :
    visits.andThen run next f = visits f ++ next a g := by
  rw [andThen, h]

theorem andThen_of_error {fault : Fault} (h : run f = .error fault g) :
    visits.andThen run next f = visits f := by
  rw [andThen, h]
  exact List.append_nil _

theorem andThen_idle (visits : Visits) (run : Run α) :
    visits.andThen run (fun _ => idle) = visits := by
  funext f
  cases h : run f with
  | ok a g =>
    rw [andThen_of_ok h]
    exact List.append_nil _
  | error fault g => exact andThen_of_error h

end Visits

open Visits

/-- The visits of the records that a draft converts. -/
def Draft.visits (convert : Json → Run NodeId) (visits : Json → Visits) : Draft α → Visits
  | .done _ => idle
  | .fail _ => idle
  | .convert r next => (visits r).andThen (convert r) fun id => (next id).visits convert visits

/-- The visits of a pass over the trees of units, given those of its work on one node. -/
def Pass.visits (p : Pass) (config : Config) (visits : NodeId → Visits) : List NodeId → Visits :=
  loop (fun unit => do let tree := (← get).walk unit; tree.forM (p.visit config)) fun unit =>
    idle.andThen get fun f => loop (p.visit config)
      (fun id => idle.andThen get fun f =>
        if (f.get? id).any p.supports then visits id else idle)
      (f.walk unit)

namespace Run

/-- The visits of a conversion: that of the record itself first, then those of the records below. -/
def convertVisits (config : Config) (schema : Schema) : Nat → Json → Visits
  | 0, _ => idle
  | levels + 1, r =>
    idle.andThen (ask fun _ => schema.draft r) fun (_, draft) =>
      idle.andThen (idOf r) fun id f => ⟨r, id⟩ ::
        (idle.andThen (ask fun _ => Record.src r) fun _ =>
          draft.visits (convert config schema levels) (convertVisits config schema levels)) f

end Run

/-- The visits of the expansion of inline assembly. -/
def Assembly.visits (config : Config) (id : NodeId) : Visits :=
  idle.andThen get fun f =>
    match (f.get? id).bind tree? with
    | none => idle
    | some tree => fun f => Run.convertVisits config .modern config.maxDepth tree f.begin

namespace Run

/-- The visits of the root of a unit. -/
def rootVisits (config : Config) (root : Output.Root) : Visits :=
  match Schema.detect? root.record with
  | none => idle
  | some schema => convertVisits config schema config.maxDepth root.record

/-- The visits of the roots of units. -/
def rootsVisits (config : Config) : List Output.Root → Visits
  | [] => idle
  | root :: rest =>
    (rootVisits config root).andThen (readRoot config root) fun _ => rootsVisits config rest

/-- The visits of units: those of their roots, and then those of the Yul code in their trees. -/
def unitsVisits (config : Config) (roots : List Output.Root) : Visits :=
  (rootsVisits config roots).andThen (readRoots config roots) fun ids => idle.andThen get fun f =>
    if config.postprocess then
      Assembly.pass.visits config (Assembly.visits config)
        (ids.mergeSort fun a b => placeOf f a ≤ placeOf f b)
    else idle

/-- The visits of a read. -/
def readVisits (config : Config) (output : Json) : Visits :=
  idle.andThen (ask fun _ => Output.roots output) fun roots f => unitsVisits config roots f.begin

end Run

/-! ### Ids of visits -/

/-- The ids that the visited records carry themselves. -/
def ownIds (vs : List Visit) : List NodeId := vs.filterMap Visit.own?

/-- The ids that the visited records were given, as they carry none. -/
def drawnIds (vs : List Visit) : List NodeId := (vs.filter fun v => v.own?.isNone).map Visit.id

namespace Forest

/-- The ids of the visits differ from each other, and none is taken. -/
structure Apart (f : Forest) (vs : List Visit) : Prop where
  nodup : (vs.map Visit.id).Nodup
  free : ∀ v ∈ vs, ¬ f.contains v.id

/-- How the ids of visits have been settled: that of a record with an id is this id, and the others
are free. -/
structure Allotted (f : Forest) (vs : List Visit) : Prop where
  id_eq : ∀ v ∈ vs, ∀ k, v.own? = some k → v.id = k
  free : ∀ v ∈ vs, v.own? = none → ¬ f.contains v.id

/-- The ids that visits were given lie above the counter, each above those before. -/
structure Ascending (f : Forest) (vs : List Visit) : Prop where
  lastId_lt : ∀ v ∈ vs, v.own? = none → f.lastId < v.id
  increasing : vs.Pairwise fun v w => v.own? = none → w.own? = none → v.id < w.id

/-- The counter, the registered ids and those that visited records carry leave room for an id for
each visit, and for `n` more. -/
structure RoomFor (f : Forest) (vs : List Visit) (n : Nat) : Prop where
  room : f.Room (vs.length + n)
  own : ∀ k ∈ ownIds vs, Word.Leaves k (vs.length + n)

instance {n : Nat} : Decidable (f.RoomFor vs n) :=
  decidable_of_iff
    (f.Room (vs.length + n) ∧ ∀ k ∈ ownIds vs, Word.Leaves k (vs.length + n))
    ⟨fun h => ⟨h.1, h.2⟩, fun h => ⟨h.room, h.own⟩⟩

/-- The counter has gone up to the ids of the visits without running over, and there is room for `n`
more ids. -/
structure Climbed (f : Forest) (vs : List Visit) (n : Nat) (g : Forest) : Prop where
  room : g.Room n
  overrun_eq : g.overrun = f.overrun
  lastId_le : f.lastId ≤ g.lastId
  id_le_lastId : ∀ v ∈ vs, v.id ≤ g.lastId

/-- The second forest has the nodes of the first one and those of the visits. -/
structure Registered (f : Forest) (vs : List Visit) (g : Forest) : Prop where
  apart : f.Apart vs
  contains_iff : ∀ k, g.contains k ↔ f.contains k ∨ k ∈ vs.map Visit.id
  climbed : ∀ {n}, f.RoomFor vs n → f.Climbed vs n g

theorem apart_nil (f : Forest) : f.Apart [] := ⟨List.nodup_nil, by simp⟩

theorem allotted_nil (f : Forest) : f.Allotted [] := ⟨by simp, by simp⟩

theorem ascending_nil (f : Forest) : f.Ascending [] := ⟨by simp, .nil⟩

theorem SameNodes.registered_nil (hfg : SameNodes f g) : f.Registered [] g where
  apart := f.apart_nil
  contains_iff k := by simp [hfg.contains_iff]
  climbed {n} h := by
    have hroom := h.room
    rw [List.length_nil, Nat.zero_add] at hroom
    exact ⟨hfg.room hroom, hfg.overrun_eq, Int.le_of_eq hfg.lastId_eq.symm, by simp⟩

/-- The first of two runs of visits has to leave room for the second one. -/
theorem RoomFor.left {n : Nat} (h : f.RoomFor (vs ++ ws) n) : f.RoomFor vs (ws.length + n) := by
  obtain ⟨hroom, hown⟩ := h
  rw [List.length_append, Nat.add_assoc] at hroom hown
  refine ⟨hroom, fun k hk => hown k ?_⟩
  rw [ownIds, List.filterMap_append]
  exact List.mem_append_left _ hk

theorem RoomFor.right {n : Nat} (h : f.RoomFor (vs ++ ws) n) (hg : g.Room (ws.length + n)) :
    g.RoomFor ws n := by
  refine ⟨hg, fun k hk => (h.own k ?_).mono ?_⟩
  · rw [ownIds, List.filterMap_append]
    exact List.mem_append_right _ hk
  · rw [List.length_append]
    omega

/-- Later visits are apart from the earlier ones if they are apart from the nodes of these. -/
theorem Registered.apart_append_iff (hvs : f.Registered vs g) :
    f.Apart (vs ++ ws) ↔ g.Apart ws := by
  constructor
  · rintro ⟨hnodup, hfree⟩
    rw [List.map_append, List.nodup_append] at hnodup
    refine ⟨hnodup.2.1, fun w hw hk => ?_⟩
    rcases (hvs.contains_iff w.id).1 hk with hold | hnew
    · exact hfree w (List.mem_append_right _ hw) hold
    · exact hnodup.2.2 w.id hnew w.id (List.mem_map_of_mem hw) rfl
  · rintro ⟨hnodup, hfree⟩
    have hold : ∀ w ∈ ws, ¬ f.contains w.id ∧ w.id ∉ vs.map Visit.id := fun w hw => by
      rw [← not_or, ← hvs.contains_iff]
      exact hfree w hw
    refine ⟨?_, fun v hv => ?_⟩
    · rw [List.map_append, List.nodup_append]
      refine ⟨hvs.apart.nodup, hnodup, fun j hj k hk hjk => ?_⟩
      obtain ⟨w, hw, rfl⟩ := List.mem_map.1 hk
      exact (hold w hw).2 (hjk ▸ hj)
    · rcases List.mem_append.1 hv with hv | hv
      · exact hvs.apart.free v hv
      · exact (hold v hv).1

theorem Registered.append (hvs : f.Registered vs g) (hws : g.Registered ws h) :
    f.Registered (vs ++ ws) h where
  apart := hvs.apart_append_iff.2 hws.apart
  contains_iff k := by
    rw [hws.contains_iff, hvs.contains_iff, List.map_append, List.mem_append, or_assoc]
  climbed hroom := by
    have hg := hvs.climbed hroom.left
    have hh := hws.climbed (hroom.right hg.room)
    refine ⟨hh.room, hh.overrun_eq.trans hg.overrun_eq, Int.le_trans hg.lastId_le hh.lastId_le,
      fun v hv => ?_⟩
    rcases List.mem_append.1 hv with hv | hv
    · exact Int.le_trans (hg.id_le_lastId v hv) hh.lastId_le
    · exact hh.id_le_lastId v hv

theorem Allotted.append (hvs : f.Allotted vs) (hreg : f.Registered vs g) (hws : g.Allotted ws) :
    f.Allotted (vs ++ ws) where
  id_eq v hv := (List.mem_append.1 hv).elim (hvs.id_eq v) (hws.id_eq v)
  free v hv hown := by
    rcases List.mem_append.1 hv with hv | hv
    · exact hvs.free v hv hown
    · exact fun hold => hws.free v hv hown ((hreg.contains_iff _).2 (.inl hold))

theorem Ascending.append {n : Nat} (hvs : f.Ascending vs) (hg : f.Climbed vs n g)
    (hws : g.Ascending ws) : f.Ascending (vs ++ ws) where
  lastId_lt v hv hown := by
    rcases List.mem_append.1 hv with hv | hv
    · exact hvs.lastId_lt v hv hown
    · exact Int.lt_of_le_of_lt hg.lastId_le (hws.lastId_lt v hv hown)
  increasing := by
    refine List.pairwise_append.2 ⟨hvs.increasing, hws.increasing, fun v hv w hw _ hown => ?_⟩
    exact Int.lt_of_le_of_lt (hg.id_le_lastId v hv) (hws.lastId_lt w hw hown)

/-- The id of a visit has been settled without the counter running over: it leaves room for `n`
more, and the counter has gone up to it if it was given out. -/
structure Settled (f : Forest) (v : Visit) (n : Nat) (g : Forest) : Prop where
  room : g.Room n
  leaves : Word.Leaves v.id n
  overrun_eq : g.overrun = f.overrun
  lastId_le : f.lastId ≤ g.lastId
  drawn : v.own? = none → f.lastId < v.id ∧ v.id ≤ g.lastId

/-- What settles the id of a visit: the nodes stay, and the counter moves on to an id that is given
out. -/
structure Allots (f : Forest) (v : Visit) (g : Forest) : Prop where
  contains_iff : ∀ k, g.contains k ↔ f.contains k
  id_eq : ∀ k, v.own? = some k → v.id = k
  free : v.own? = none → ¬ f.contains v.id
  settled : ∀ {n}, f.RoomFor [v] n → f.Settled v n g

namespace Allots

theorem allotted (hv : f.Allots v g) (hvs : g.Allotted vs) : f.Allotted (v :: vs) where
  id_eq := List.forall_mem_cons.2 ⟨hv.id_eq, hvs.id_eq⟩
  free := List.forall_mem_cons.2 ⟨hv.free, fun w hw hown hold =>
    hvs.free w hw hown ((hv.contains_iff _).2 hold)⟩

/-- What is settled leaves room for the visits that follow. -/
theorem settled_cons {n : Nat} (hv : f.Allots v g) (hroom : f.RoomFor (v :: vs) n) :
    f.Settled v (vs.length + n) g ∧ g.RoomFor vs n := by
  have hroom : f.RoomFor ([v] ++ vs) n := hroom
  have hg := hv.settled hroom.left
  exact ⟨hg, hroom.right hg.room⟩

theorem ascending {n : Nat} (hv : f.Allots v g) (hroom : f.RoomFor (v :: vs) n)
    (hvs : ∀ {n}, g.RoomFor vs n → g.Ascending vs) : f.Ascending (v :: vs) := by
  obtain ⟨hg, hrest⟩ := hv.settled_cons hroom
  have habove := hvs hrest
  constructor
  · refine List.forall_mem_cons.2 ⟨fun hown => (hg.drawn hown).1, fun w hw hown => ?_⟩
    exact Int.lt_of_le_of_lt hg.lastId_le (habove.lastId_lt w hw hown)
  · refine List.pairwise_cons.2 ⟨fun w hw hown hown' => ?_, habove.increasing⟩
    exact Int.lt_of_le_of_lt (hg.drawn hown).2 (habove.lastId_lt w hw hown')

theorem apart_of_cons (hv : f.Allots v g) (hvs : f.Apart (v :: vs)) : g.Apart vs where
  nodup := (List.nodup_cons.1 hvs.nodup).2
  free w hw hk := hvs.free w (List.mem_cons_of_mem _ hw) ((hv.contains_iff _).1 hk)

/-- Where the ids differ and are free, that of the first visit is not taken by the others. -/
theorem not_contains_of_apart (hv : f.Allots v g) (hvs : g.Registered vs h)
    (hapart : f.Apart (v :: vs)) : ¬ h.contains v.id := by
  rw [hvs.contains_iff, hv.contains_iff, not_or]
  exact ⟨hapart.free v List.mem_cons_self, (List.nodup_cons.1 hapart.nodup).1⟩

/-- The node is registered when the records below it have become nodes. -/
theorem registered (hv : f.Allots v g) (hvs : g.Registered vs h) {n : Node} {h' : Forest}
    (hn : n.id = v.id) (hreg : h.register n = .ok h') : f.Registered (v :: vs) h' := by
  have hnew : ¬ h.contains v.id := hn ▸ (register_eq_ok hreg).1
  rw [hvs.contains_iff, hv.contains_iff, not_or] at hnew
  refine ⟨⟨List.nodup_cons.2 ⟨hnew.2, hvs.apart.nodup⟩, ?_⟩, fun k => ?_, fun {m} hroom => ?_⟩
  · refine List.forall_mem_cons.2 ⟨hnew.1, fun w hw hold => ?_⟩
    exact hvs.apart.free w hw ((hv.contains_iff _).2 hold)
  · rw [contains_register hreg, hvs.contains_iff, hv.contains_iff, List.map_cons, List.mem_cons, hn]
    exact or_left_comm
  · obtain ⟨hg, hrest⟩ := hv.settled_cons hroom
    have hh := hvs.climbed hrest
    have hlast : h'.lastId = max h.lastId v.id := hn ▸ lastId_register hreg
    have hleaves : Word.Leaves n.id m := hn.symm ▸ hg.leaves.mono (Nat.le_add_left m vs.length)
    refine ⟨hh.room.register hreg hleaves, ?_, ?_, ?_⟩
    · rw [overrun_register hreg, hh.overrun_eq, hg.overrun_eq]
    · rw [hlast]
      exact Int.le_trans (Int.le_trans hg.lastId_le hh.lastId_le) (Int.le_max_left _ _)
    · rw [hlast]
      refine List.forall_mem_cons.2 ⟨Int.le_max_right _ _, fun w hw => ?_⟩
      exact Int.le_trans (hh.id_le_lastId w hw) (Int.le_max_left _ _)

end Allots

end Forest

namespace Run

instance noClash_idOf (r : Json) : NoClash (idOf r) := by
  refine NoClash.instAsk.bind fun own? => ?_
  split <;> infer_instance

theorem allots_of_idOf {r : Json} {id : NodeId} (hid : idOf r f = .ok id g) :
    f.Allots ⟨r, id⟩ g := by
  obtain ⟨own?, f', hask, hid⟩ := bind_eq_ok.1 hid
  obtain ⟨hown, rfl⟩ := ask_eq_ok.1 hask
  have hown : Visit.own? ⟨r, id⟩ = own? := by rw [Visit.own?, hown]; rfl
  cases own? with
  | some k =>
    cases hid
    refine ⟨fun _ => .rfl, fun k hk => Option.some.inj (hown.symm.trans hk), fun hnone => ?_,
      fun {n} hroom => ⟨?_, ?_, rfl, Int.le_refl _, fun hnone => ?_⟩⟩
    · rw [hown] at hnone
      contradiction
    · exact hroom.room.mono (Nat.le_add_left n 1)
    · refine (hroom.own id ?_).mono (Nat.le_add_left n 1)
      exact List.mem_filterMap.2 ⟨_, List.mem_singleton_self _, hown⟩
    · rw [hown] at hnone
      contradiction
  | none =>
    cases hid
    refine ⟨fun _ => .rfl, fun k hk => ?_, fun _ => f.not_contains_nextId, fun {n} hroom => ?_⟩
    · rw [hown] at hk
      contradiction
    · have hroom : f.Room (n + 1) := Nat.add_comm 1 n ▸ hroom.room
      have hlt := lastId_lt_nextId hroom.hasNext
      exact ⟨hroom.nextId, hroom.leaves_nextId, hroom.overrun_nextId, Int.le_of_lt hlt,
        fun _ => ⟨hlt, Int.le_refl _⟩⟩

/-! ### Visits of runs -/

/-- The ids of the visits decide whether the run fails because an id is taken. -/
structure Clashes (run : Run α) (visits : Visits) : Prop where
  allotted (f : Forest) : f.Allotted (visits f)
  ascending : ∀ {f : Forest} {n : Nat}, f.RoomFor (visits f) n → f.Ascending (visits f)
  apart : ∀ {f a g}, run f = .ok a g → f.Apart (visits f)
  not_apart : ∀ {f k g}, run f = .error (.idCollision k) g → ¬ f.Apart (visits f)

/-- Besides, the run registers the ids of the visits and no others if it succeeds. -/
structure Numbers (run : Run α) (visits : Visits) : Prop extends Clashes run visits where
  registered : ∀ {f a g}, run f = .ok a g → f.Registered (visits f) g

/-- The run registers nothing, and does not fail because an id is taken. -/
structure Quiet (run : Run α) : Prop where
  noClash : NoClash run
  sameNodes (f : Forest) : wp run (fun _ => SameNodes f) (fun _ => True) f

variable {run : Run α} {visits : Visits}

/-! ### Runs without visits -/

theorem NoClash.clashes (hrun : NoClash run) : Clashes run idle where
  allotted f := f.allotted_nil
  ascending _ := ascending_nil _
  apart {f _ _} _ := f.apart_nil
  not_apart hk := absurd hk (hrun.ne_error _ _ _)

theorem Quiet.numbers (hrun : Quiet run) : Numbers run idle where
  toClashes := hrun.noClash.clashes
  registered {f _ _} h := by
    have hsame := wp_ok (hrun.sameNodes f) h
    exact hsame.registered_nil

namespace Quiet

theorem bind {next : α → Run β} (hrun : Quiet run) (hnext : ∀ a, Quiet (next a)) :
    Quiet (run >>= next) where
  noClash := hrun.noClash.bind fun a => (hnext a).noClash
  sameNodes f := by
    refine (hrun.sameNodes f).andThen fun a g hfg => ?_
    exact ((hnext a).sameNodes g).mono (fun _ h hgh => hfg.trans hgh) fun _ _ => trivial

theorem pure (a : α) : Quiet (pure a) := ⟨inferInstance, fun f => wp_pure (.refl f)⟩

theorem throw {fault : Fault} (h : ∀ k, fault ≠ .idCollision k) : Quiet (throw fault : Run α) where
  noClash := ⟨fun f k g hk => by cases hk; exact h k rfl⟩
  sameNodes _ := wp_throw trivial

theorem get : Quiet get := ⟨inferInstance, fun f => wp_get (.refl f)⟩

theorem modify {change : Forest → Forest} (h : ∀ f, SameNodes f (change f)) :
    Quiet (modify change) := ⟨inferInstance, fun f => wp_modify (h f)⟩

theorem ask {question : Forest → Except Fault α} [∀ f, Except.NoClash (question f)] :
    Quiet (ask question) := ⟨inferInstance, fun f => wp_ask (fun _ _ => .refl f) trivial⟩

theorem forM {ι : Type} {items : List ι} {body : ι → Run PUnit} (h : ∀ i, Quiet (body i)) :
    Quiet (items.forM body) := by
  induction items with
  | nil => exact pure PUnit.unit
  | cons i rest ih => exact (h i).bind fun _ => ih

end Quiet

/-! ### Runs one after another -/

theorem Clashes.andThen {next : α → Run β} {rest : α → Visits} (hrun : Numbers run visits)
    (hnext : ∀ a, (∃ f g, run f = .ok a g) → Clashes (next a) (rest a)) :
    Clashes (run >>= next) (visits.andThen run rest) where
  allotted f := by
    cases hok : run f with
    | ok a g =>
      rw [andThen_of_ok hok]
      exact (hrun.allotted f).append (hrun.registered hok) ((hnext a ⟨f, g, hok⟩).allotted g)
    | error fault g =>
      rw [andThen_of_error hok]
      exact hrun.allotted f
  ascending {f n} hroom := by
    cases hok : run f with
    | ok a g =>
      rw [andThen_of_ok hok] at hroom ⊢
      have hg := (hrun.registered hok).climbed hroom.left
      exact (hrun.ascending hroom.left).append hg
        ((hnext a ⟨f, g, hok⟩).ascending (hroom.right hg.room))
    | error fault g =>
      rw [andThen_of_error hok] at hroom ⊢
      exact hrun.ascending hroom
  apart {f b h} hok := by
    obtain ⟨a, g, hg, hh⟩ := bind_eq_ok.1 hok
    rw [andThen_of_ok hg]
    exact (hrun.registered hg).apart_append_iff.2 ((hnext a ⟨f, g, hg⟩).apart hh)
  not_apart {f k h} herror := by
    rcases bind_eq_error.1 herror with hfails | ⟨a, g, hg, hh⟩
    · rw [andThen_of_error hfails]
      exact hrun.not_apart hfails
    · rw [andThen_of_ok hg]
      intro hapart
      have hrest := (hrun.registered hg).apart_append_iff.1 hapart
      exact (hnext a ⟨f, g, hg⟩).not_apart hh hrest

/-- What cannot clash has no say. -/
theorem Clashes.thenNoClash {next : α → Run β} (hrun : Clashes run visits)
    (hnext : ∀ a, NoClash (next a)) : Clashes (run >>= next) visits where
  allotted := hrun.allotted
  ascending := hrun.ascending
  apart hok := by
    obtain ⟨a, g, hg, -⟩ := bind_eq_ok.1 hok
    exact hrun.apart hg
  not_apart {f k h} herror := by
    rcases bind_eq_error.1 herror with hfails | ⟨a, g, -, hh⟩
    · exact hrun.not_apart hfails
    · exact absurd hh ((hnext a).ne_error g k h)

theorem Numbers.andThen {next : α → Run β} {rest : α → Visits} (hrun : Numbers run visits)
    (hnext : ∀ a, (∃ f g, run f = .ok a g) → Numbers (next a) (rest a)) :
    Numbers (run >>= next) (visits.andThen run rest) where
  toClashes := Clashes.andThen hrun fun a ha => (hnext a ha).toClashes
  registered {f b h} hok := by
    obtain ⟨a, g, hg, hh⟩ := bind_eq_ok.1 hok
    rw [andThen_of_ok hg]
    exact (hrun.registered hg).append ((hnext a ⟨f, g, hg⟩).registered hh)

/-- A run that visits nothing adds no visits. -/
theorem Numbers.thenQuiet {next : α → Run β} (hrun : Numbers run visits)
    (hnext : ∀ a, Quiet (next a)) : Numbers (run >>= next) visits := by
  have hboth := hrun.andThen fun a _ => (hnext a).numbers
  rwa [visits.andThen_idle run] at hboth

theorem Numbers.loop {ι : Type} {items : List ι} {body : ι → Run PUnit} {visits : ι → Visits}
    (h : ∀ i, Numbers (body i) (visits i)) :
    Numbers (items.forM body) (loop body visits items) := by
  induction items with
  | nil => exact (Quiet.pure _).numbers
  | cons i rest ih => exact (h i).andThen fun _ _ => ih

theorem roomFor_begin {n : Nat} (h : f.RoomFor vs n) : f.begin.RoomFor vs n where
  room := ⟨h.room.lastId, fun hk => h.room.contains hk⟩
  own := h.own

/-- A transaction changes neither the nodes nor the counter. -/
theorem Clashes.transaction (hrun : Clashes run visits) :
    Clashes (transaction run) fun f => visits f.begin where
  allotted f := by
    obtain ⟨hid, hfree⟩ := hrun.allotted f.begin
    exact ⟨hid, hfree⟩
  ascending {f n} hroom := by
    obtain ⟨hlt, hincreasing⟩ := hrun.ascending (roomFor_begin hroom)
    exact ⟨hlt, hincreasing⟩
  apart {f a g} hok := by
    obtain ⟨h, hrun', -⟩ := transaction_eq_ok.1 hok
    obtain ⟨hnodup, hfree⟩ := hrun.apart hrun'
    exact ⟨hnodup, hfree⟩
  not_apart {f k g} herror := by
    rw [Run.transaction] at herror
    split at herror
    · contradiction
    · next hfails =>
      cases herror
      intro hapart
      exact hrun.not_apart hfails ⟨hapart.nodup, hapart.free⟩

theorem Numbers.transaction (hrun : Numbers run visits) :
    Numbers (transaction run) fun f => visits f.begin where
  toClashes := hrun.toClashes.transaction
  registered {f a g} hok := by
    obtain ⟨h, hrun', rfl⟩ := transaction_eq_ok.1 hok
    obtain ⟨⟨hnodup, hfree⟩, hcontains, hclimbed⟩ := hrun.registered hrun'
    refine ⟨⟨hnodup, hfree⟩, fun k => ?_, fun hroom => ?_⟩
    · rw [contains_commit]
      exact hcontains k
    · obtain ⟨⟨hlast, hregistered⟩, hover, hle, hids⟩ := hclimbed (roomFor_begin hroom)
      refine ⟨⟨?_, fun hk => hregistered (contains_commit ▸ hk)⟩, ?_, ?_, ?_⟩
      · rwa [lastId_commit]
      · rwa [overrun_commit]
      · rwa [lastId_commit]
      · rwa [lastId_commit]

/-! ### Records -/

theorem numbers_draft {convert : Json → Run NodeId} {visits : Json → Visits}
    (hconvert : ∀ r, Numbers (convert r) (visits r)) {d : Draft α} (hd : d.NoClash) :
    Numbers (d.run convert) (d.visits convert visits) := by
  obtain ⟨hd⟩ := hd
  induction d with
  | done a => exact (Quiet.pure a).numbers
  | fail fault => exact (Quiet.throw hd).numbers
  | convert r next ih => exact (hconvert r).andThen fun id _ => ih id (hd id)

/-- The node of a record is registered when the records below have become nodes. -/
theorem Numbers.visit {below : Run β} (hbelow : Numbers below visits) (r : Json)
    (node : NodeId → β → Node) (hnode : ∀ id b, (node id b).id = id) :
    Numbers (do let id ← idOf r; let b ← below; let _ ← register (node id b); return id)
      (idle.andThen (idOf r) fun id f => ⟨r, id⟩ :: visits f) := by
  have hregistered : ∀ {f a h},
      (do let id ← idOf r; let b ← below; let _ ← register (node id b); return id) f = .ok a h →
        f.Registered (idle.andThen (idOf r) (fun id f => ⟨r, id⟩ :: visits f) f) h := by
    intro f a h hok
    obtain ⟨id, g, hid, hok⟩ := bind_eq_ok.1 hok
    obtain ⟨b, g', hb, hok⟩ := bind_eq_ok.1 hok
    obtain ⟨_, h', hreg, hend⟩ := bind_eq_ok.1 hok
    obtain rfl : h' = h := by cases hend; rfl
    have hnew : wp (register (node id b)) (fun _ h => g'.register (node id b) = .ok h)
        (fun _ => True) g' := wp_register (fun h hh => hh) trivial
    rw [andThen_of_ok hid]
    exact (allots_of_idOf hid).registered (hbelow.registered hb) (hnode id b) (wp_ok hnew hreg)
  refine ⟨⟨fun f => ?_, fun {f n} hroom => ?_, fun hok => (hregistered hok).apart,
    fun {f k h} herror => ?_⟩, hregistered⟩
  · cases hid : idOf r f with
    | ok id g =>
      rw [andThen_of_ok hid]
      exact (allots_of_idOf hid).allotted (hbelow.allotted g)
    | error fault g =>
      rw [andThen_of_error hid]
      exact f.allotted_nil
  · cases hid : idOf r f with
    | ok id g =>
      rw [andThen_of_ok hid] at hroom ⊢
      exact (allots_of_idOf hid).ascending hroom hbelow.ascending
    | error fault g =>
      rw [andThen_of_error hid]
      exact f.ascending_nil
  · rcases bind_eq_error.1 herror with hfails | ⟨id, g, hid, herror⟩
    · exact absurd hfails ((noClash_idOf r).ne_error f k h)
    · rw [andThen_of_ok hid]
      intro hapart
      have hrest := (allots_of_idOf hid).apart_of_cons hapart
      rcases bind_eq_error.1 herror with hfails | ⟨b, g', hb, herror⟩
      · exact hbelow.not_apart hfails hrest
      · rcases bind_eq_error.1 herror with hfails | ⟨_, h', _, hend⟩
        · have htaken := contains_of_register_eq_error hfails
          rw [hnode] at htaken
          exact (allots_of_idOf hid).not_contains_of_apart (hbelow.registered hb) hapart htaken
        · contradiction

theorem numbers_convert (config : Config) (schema : Schema) (levels : Nat) (r : Json) :
    Numbers (convert config schema levels r) (convertVisits config schema levels r) := by
  -- on the depth: the records below are converted one level deeper
  induction levels generalizing r with
  | zero => exact Quiet.numbers (Quiet.throw fun _ => nofun)
  | succ levels ih =>
    refine Quiet.ask.numbers.andThen fun (kind, draft) ⟨f, g, hask⟩ => ?_
    have hdraft := Schema.noClash_of_draft (ask_eq_ok.1 hask).1
    have hbelow : Numbers
        (do
          let src ← ask fun _ => Record.src r
          let payload ← draft.run (convert config schema levels)
          return (src, payload))
        (idle.andThen (ask fun _ => Record.src r) fun _ =>
          draft.visits (convert config schema levels) (convertVisits config schema levels)) :=
      Quiet.ask.numbers.andThen fun src _ =>
        (numbers_draft ih hdraft).thenQuiet fun payload => Quiet.pure _
    have hvisit := hbelow.visit r (fun id (src, payload) => .fresh id src payload
      (if config.keepRaw ∨ kind = .inlineAssembly then some (Record.shallow schema r) else none))
      fun _ _ => rfl
    simpa only [bind_assoc, pure_bind] using hvisit

theorem numbers_readRoot (config : Config) (root : Output.Root) :
    Numbers (readRoot config root) (rootVisits config root) := by
  unfold readRoot rootVisits
  cases Schema.detect? root.record with
  | none => exact Quiet.numbers (Quiet.throw fun _ => nofun)
  | some schema =>
    refine (numbers_convert config schema config.maxDepth root.record).thenQuiet fun id => ?_
    have hplace : Quiet (do
        modify (Forest.modifyPayload · id (Payload.mapUnit · (placed root)))
        return id) :=
      (Quiet.modify fun f => .modifyPayload f id _).bind fun _ => Quiet.pure id
    refine Quiet.get.bind fun f => ?_
    dsimp only
    split
    · exact Quiet.bind (Quiet.throw fun _ => nofun) fun _ => hplace
    · exact hplace

theorem numbers_readRoots (config : Config) (roots : List Output.Root) :
    Numbers (readRoots config roots) (rootsVisits config roots) := by
  induction roots with
  | nil => exact (Quiet.pure []).numbers
  | cons root rest ih =>
    exact (numbers_readRoot config root).andThen fun id _ => ih.thenQuiet fun ids => Quiet.pure _

theorem numbers_pass (p : Pass) (config : Config) {visits : NodeId → Visits}
    (h : ∀ id, Numbers (p.process config id) (visits id)) (units : List NodeId) :
    Numbers (p.run config units) (p.visits config visits units) := by
  refine Numbers.loop fun unit => Quiet.get.numbers.andThen fun f _ => ?_
  refine Numbers.loop fun id => Quiet.get.numbers.andThen fun f _ => ?_
  split
  · exact (h id).thenQuiet fun _ => Quiet.pure _
  · exact (Quiet.pure _).numbers

end Run

theorem Assembly.numbers_process (config : Config) (id : NodeId) :
    Run.Numbers (process config id) (visits config id) := by
  refine Run.Quiet.get.numbers.andThen fun f _ => ?_
  cases (f.get? id).bind tree? with
  | none => exact (Run.Quiet.pure false).numbers
  | some tree =>
    have hconvert := (Run.numbers_convert config .modern config.maxDepth tree).transaction
    refine hconvert.thenQuiet fun yul => ?_
    have hadopt : Run.Quiet (adopt id yul) := by
      refine Run.Quiet.get.bind fun f => ?_
      split
      · exact Run.Quiet.throw fun _ => nofun
      · refine (Run.Quiet.modify fun f => ?_).bind fun _ => Run.Quiet.pure _
        exact .attach f id yul _
    refine hadopt.bind fun references => Run.Quiet.get.bind fun g => ?_
    refine (Run.Quiet.forM fun n => Run.Quiet.modify fun f => ?_).bind fun _ => Run.Quiet.pure true
    refine sameNodes_modify f n fun m => ?_
    rcases link_eq_mapPayload references m with hlink | ⟨target, hlink⟩
    · rw [hlink]
    · rw [hlink]
      rfl

namespace Run

theorem clashes_readUnits (config : Config) (roots : List Output.Root) :
    Clashes (readUnits config roots) (unitsVisits config roots) := by
  refine Clashes.andThen (numbers_readRoots config roots) fun ids _ => ?_
  refine Clashes.andThen Quiet.get.numbers fun f _ => ?_
  dsimp only
  by_cases hpasses : config.postprocess
  · rw [if_pos hpasses, if_pos hpasses]
    have hexpands := numbers_pass Assembly.pass config (Assembly.numbers_process config)
      (ids.mergeSort fun a b => placeOf f a ≤ placeOf f b)
    refine Clashes.thenNoClash ?_ fun _ => inferInstance
    exact hexpands.toClashes.thenNoClash fun _ => Pass.noClash_lastPasses config _
  · rw [if_neg hpasses, if_neg hpasses]
    exact (Quiet.pure _).numbers.toClashes

theorem clashes_read (config : Config) (output : Json) :
    Clashes (read config output) (readVisits config output) := by
  refine Clashes.andThen Quiet.ask.numbers fun roots _ => ?_
  exact (clashes_readUnits config roots).transaction

end Run

/-! ### Ids in records -/

/-- A record without an id was given the id that another record carries. -/
def Preempted (vs : List Visit) : Prop := ∃ v ∈ vs, ∃ w ∈ vs, v.own? = none ∧ w.own? = some v.id

theorem nodup_drawnIds : (drawnIds vs).Nodup ↔
    vs.Pairwise fun v w => v.own? = none → w.own? = none → v.id ≠ w.id := by
  rw [drawnIds, List.Nodup, List.pairwise_map, List.pairwise_filter]
  simp only [Option.isNone_iff_eq_none]

namespace Forest

/-- Where there is room for all of them, no id is given out twice. -/
theorem Ascending.nodup_drawnIds (hvs : f.Ascending vs) : (drawnIds vs).Nodup :=
  SolidityTree.nodup_drawnIds.2 <| hvs.increasing.imp fun hlt hv hw => Int.ne_of_lt (hlt hv hw)

variable (hnodup : (ownIds vs).Nodup) (hfree : ∀ k ∈ ownIds vs, ¬ f.contains k)
include hnodup hfree

/-- Where the ids in the records differ and are free, visits have the same id only if it was given
out to one of them. -/
theorem Allotted.apart (hvs : f.Allotted vs) (h : ¬ Preempted vs) (hdrawn : (drawnIds vs).Nodup) :
    f.Apart vs where
  nodup := by
    have hown : vs.Pairwise fun v w => ∀ j, v.own? = some j → ∀ k, w.own? = some k → j ≠ k :=
      List.pairwise_filterMap.1 hnodup
    refine List.pairwise_map.2 ((hown.and (nodup_drawnIds.1 hdrawn)).imp_of_mem ?_)
    intro v w hv hw ⟨hdiffer, hne⟩ heq
    cases hvown : v.own? with
    | none =>
      cases hwown : w.own? with
      | none => exact hne hvown hwown heq
      | some k => exact h ⟨v, hv, w, hw, hvown, by rw [hwown, heq, hvs.id_eq w hw k hwown]⟩
    | some j =>
      cases hwown : w.own? with
      | none => exact h ⟨w, hw, v, hv, hwown, by rw [hvown, ← heq, hvs.id_eq v hv j hvown]⟩
      | some k =>
        rw [hvs.id_eq v hv j hvown, hvs.id_eq w hw k hwown] at heq
        exact hdiffer j hvown k hwown heq
  free v hv := by
    cases hown : v.own? with
    | none => exact hvs.free v hv hown
    | some k =>
      rw [hvs.id_eq v hv k hown]
      exact hfree k (List.mem_filterMap.2 ⟨v, hv, hown⟩)

theorem Allotted.apart_iff (hvs : f.Allotted vs) :
    f.Apart vs ↔ ¬ Preempted vs ∧ (drawnIds vs).Nodup := by
  refine ⟨fun hapart => ⟨fun ⟨v, hv, w, hw, hvown, hwown⟩ => ?_, ?_⟩,
    fun h => hvs.apart hnodup hfree h.1 h.2⟩
  · have heq : w = v := List.inj_on_of_nodup_map hapart.nodup hw hv (hvs.id_eq w hw _ hwown)
    rw [heq, hvown] at hwown
    contradiction
  · exact nodup_drawnIds.2 ((List.pairwise_map.1 hapart.nodup).imp fun hne _ _ => hne)

end Forest

namespace Run

/-- **A read of records with different, free ids fails because an id is taken only if** a record
without an id was given one that another record carries, or if an id was given out twice; and if so,
it does not succeed.  No id is given out twice where there is room for an id for each record. -/
theorem idCollision_read (f : Forest) (config : Config) (output : Json)
    (hnodup : (ownIds (readVisits config output f)).Nodup)
    (hfree : ∀ k ∈ ownIds (readVisits config output f), ¬ f.contains k) :
    ((∃ k g, read config output f = .error (.idCollision k) g) →
        Preempted (readVisits config output f) ∨
          ¬ (drawnIds (readVisits config output f)).Nodup) ∧
      (Preempted (readVisits config output f) ∨ ¬ (drawnIds (readVisits config output f)).Nodup →
        ∀ units g, read config output f ≠ .ok units g) ∧
      (f.RoomFor (readVisits config output f) 0 →
        (drawnIds (readVisits config output f)).Nodup) := by
  have hclashes := clashes_read config output
  have hapart : f.Apart (readVisits config output f) ↔
      ¬ (Preempted (readVisits config output f) ∨
        ¬ (drawnIds (readVisits config output f)).Nodup) := by
    rw [(hclashes.allotted f).apart_iff hnodup hfree, not_or, not_not]
  refine ⟨?_, ?_, fun hroom => (hclashes.ascending hroom).nodup_drawnIds⟩
  · rintro ⟨k, g, herror⟩
    by_contra hnone
    exact hclashes.not_apart herror (hapart.2 hnone)
  · intro htaken units g hok
    exact hapart.1 (hclashes.apart hok) htaken

/-- A unit without an id, and in it a record that carries the id 1. -/
def takenId : Json :=
  .object [("nodeType", .string "SourceUnit"), ("nodes", .array
    [.object [("nodeType", .string "PragmaDirective"), ("id", .int 1)]])]

/-- The unit is given the id 1 before the record in it is seen. -/
theorem idCollision_read_takenId :
    (ownIds (readVisits .standard takenId (empty 0))).Nodup ∧
      (∀ k ∈ ownIds (readVisits .standard takenId (empty 0)), ¬ (empty 0).contains k) ∧
      (∃ g, read .standard takenId (empty 0) = .error (.idCollision 1) g) ∧
      Preempted (readVisits .standard takenId (empty 0)) := by
  have hids : ownIds (readVisits .standard takenId (empty 0)) = [1] := by decide +kernel
  have hread : read .standard takenId =
      transaction (readUnits .standard [Output.Root.ofRecord takenId]) := read_eq_transaction rfl
  have hends : fault? (read .standard takenId) (empty 0) = some (.idCollision 1) := by
    rw [hread, readUnits_singleton]
    decide +kernel
  obtain ⟨g, h⟩ := fault?_eq_some hends
  have hnodup : (ownIds (readVisits .standard takenId (empty 0))).Nodup := by
    rw [hids]
    exact List.nodup_singleton 1
  have hfree : ∀ k ∈ ownIds (readVisits .standard takenId (empty 0)), ¬ (empty 0).contains k := by
    rw [hids]
    decide
  have hdrawn : drawnIds (readVisits .standard takenId (empty 0)) = [1] := by decide +kernel
  have honce : (drawnIds (readVisits .standard takenId (empty 0))).Nodup := by
    rw [hdrawn]
    exact List.nodup_singleton 1
  have hclash := (idCollision_read (empty 0) .standard takenId hnodup hfree).1 ⟨1, g, h⟩
  exact ⟨hnodup, hfree, ⟨g, h⟩, hclash.resolve_right fun htwice => htwice honce⟩

end Run

end SolidityTree
