import SolidityTree.Forest.Making
import SolidityTree.Proofs.Edits
import SolidityTree.Proofs.Trees

/-!
# New nodes

A node that is registered must not be registered yet, and its children must be there and be roots.
That is all `Forest.register` asks for; a forest stays consistent only if the new node also comes
without a parent mark of its own and lists no child twice (`consistent_register_iff`).  The nodes
that `Run.make` and `Run.copy` register come without marks, and a copy lists no child twice because
the copies of its children are registered under different ids (`Run.Copying`).

An id that is given out is free (`not_contains_nextId`), and it is above the counter unless the
counter runs over, which it does not do where there is room (`Room`).
-/

namespace SolidityTree

/-! ### Words -/

namespace Word

/-- There are at least `n` words above a word. -/
def Leaves (k : Int) (n : Nat) : Prop := k ≤ maxSigned - n

variable {k : Int} {m n : Nat}

instance : Decidable (Leaves k n) := inferInstanceAs (Decidable (k ≤ maxSigned - n))

theorem Leaves.mono (h : Leaves k n) (hle : m ≤ n) : Leaves k m := by
  unfold Leaves at h ⊢
  omega

theorem Leaves.succ (h : Leaves k (n + 1)) : Leaves (k + 1) n := by
  unfold Leaves at h ⊢
  omega

theorem Leaves.le_maxSigned (h : Leaves k n) : k ≤ maxSigned := by
  unfold Leaves at h
  omega

theorem not_leaves_succ (n : Nat) : ¬ Leaves (maxSigned - n) (n + 1) := by
  unfold Leaves
  omega

end Word

namespace Forest

variable {f f' : Forest} {k : NodeId} {n : Node}

/-! ### Registration -/

theorem register_eq_ok (h : f.register n = .ok f') :
    ¬ f.contains n.id ∧ (∀ c ∈ n.children, f.contains c ∧ f.parent? c = none) ∧
      f' = f.insert n := by
  unfold register at h
  dsimp only at h
  split at h
  · contradiction
  · next hfresh =>
    refine ⟨hfresh, ?_⟩
    -- a node with the stamp of another forest is not taken in
    split at h
    · split at h
      · contradiction
      · obtain ⟨⟨⟩, hchildren, h⟩ := Except.bind_eq_ok.1 h
        exact ⟨forM_checkDetached_eq_ok hchildren, (Except.ok.inj h).symm⟩
    · obtain ⟨⟨⟩, hchildren, h⟩ := Except.bind_eq_ok.1 h
      exact ⟨forM_checkDetached_eq_ok hchildren, (Except.ok.inj h).symm⟩

/-- A node that is in no forest yet is taken in if its id is free and its children are roots. -/
theorem register_of_roots (hfree : ¬ f.contains n.id) (hforest : n.forest? = none)
    (hchildren : ∀ c ∈ n.children, f.contains c ∧ f.parent? c = none) :
    f.register n = .ok (f.insert n) := by
  rw [register, if_neg hfree, hforest]
  exact Except.bind_eq_ok.2 ⟨(), forM_checkDetached_of_roots hchildren, rfl⟩

theorem not_mem_children_of_register (h : f.register n = .ok f') : n.id ∉ n.children :=
  fun hself => (register_eq_ok h).1 ((register_eq_ok h).2.1 _ hself).1

theorem contains_register (h : f.register n = .ok f') :
    f'.contains k ↔ k = n.id ∨ f.contains k := by
  have hself := not_mem_children_of_register h
  obtain ⟨-, -, rfl⟩ := register_eq_ok h
  exact contains_insert n hself

theorem children_register (h : f.register n = .ok f') :
    f'.children k = if k = n.id then n.children else f.children k := by
  have hself := not_mem_children_of_register h
  obtain ⟨-, -, rfl⟩ := register_eq_ok h
  exact children_insert n hself

theorem lastId_register (h : f.register n = .ok f') : f'.lastId = max f.lastId n.id := by
  obtain ⟨-, -, rfl⟩ := register_eq_ok h
  exact lastId_insert n

theorem overrun_register (h : f.register n = .ok f') : f'.overrun = f.overrun := by
  obtain ⟨-, -, rfl⟩ := register_eq_ok h
  exact overrun_insert n

theorem Consistent.register (hf : f.Consistent) (h : f.register n = .ok f')
    (hroot : n.parent? = none) (hnodup : n.children.Nodup) : f'.Consistent := by
  obtain ⟨hfresh, hchildren, rfl⟩ := register_eq_ok h
  exact (hf.insert_iff hfresh (fun c hc => (hchildren c hc).1) fun c hc => (hchildren c hc).2).2
    ⟨hroot, hnodup⟩

/-- **Registration keeps a forest consistent exactly if** the new node comes without a parent mark
and lists no child twice; it is accepted in any case. -/
theorem consistent_register_iff (hf : f.Consistent) (h : f.register n = .ok f') :
    f'.Consistent ↔ n.parent? = none ∧ n.children.Nodup := by
  obtain ⟨hfresh, hchildren, rfl⟩ := register_eq_ok h
  exact hf.insert_iff hfresh (fun c hc => (hchildren c hc).1) fun c hc => (hchildren c hc).2

/-- A block with the given statements. -/
def blockNode (id : NodeId) (statements : List NodeId) : Node :=
  .fresh id .unknown (.block ⟨none, none⟩ statements) none

/-- A block without statements, and an identifier beside it. -/
def blockAndName : Forest :=
  ((empty 0).insert (blockNode 1 [])).insert
    (.fresh 2 .unknown (.identifier "" "x" .builtin []) none)

theorem consistent_blockAndName : blockAndName.Consistent := by
  have hblock : (empty 0).register (blockNode 1 []) = .ok ((empty 0).insert (blockNode 1 [])) := rfl
  have hboth : ((empty 0).insert (blockNode 1 [])).register
      (.fresh 2 .unknown (.identifier "" "x" .builtin []) none) = .ok blockAndName := rfl
  exact ((consistent_empty 0).register hblock rfl List.nodup_nil).register hboth rfl List.nodup_nil

/-- A block that names a statement twice is accepted, and so is one with the mark of a parent that
does not list it. -/
theorem not_consistent_of_register_blockAndName :
    (∃ g, blockAndName.register (blockNode 3 [2, 2]) = .ok g ∧ ¬ g.Consistent) ∧
      ∃ g, blockAndName.register { blockNode 3 [] with parent? := some 1 } = .ok g ∧
        ¬ g.Consistent := by
  have htwice : blockAndName.register (blockNode 3 [2, 2]) =
      .ok (blockAndName.insert (blockNode 3 [2, 2])) := rfl
  have hmarked : blockAndName.register { blockNode 3 [] with parent? := some 1 } =
      .ok (blockAndName.insert { blockNode 3 [] with parent? := some 1 }) := rfl
  refine ⟨⟨_, htwice, fun h => ?_⟩, ⟨_, hmarked, fun h => ?_⟩⟩
  · have hnodup := ((consistent_register_iff consistent_blockAndName htwice).1 h).2
    exact absurd hnodup (by decide)
  · have hroot := ((consistent_register_iff consistent_blockAndName hmarked).1 h).1
    exact absurd hroot (by decide)

/-! ### Ids -/

theorem le_freeFrom (f : Forest) (id : NodeId) (bound : Nat) : id ≤ f.freeFrom id bound := by
  induction bound generalizing id with
  | zero => exact Int.le_refl id
  | succ bound ih =>
    rw [freeFrom]
    split
    · exact Int.le_trans (Int.le_of_lt (Int.lt_succ id)) (ih (id + 1))
    · exact Int.le_refl id

/-- If the search for a free id ends at one that is taken, all those on the way are taken. -/
theorem contains_of_contains_freeFrom {id : NodeId} {bound : Nat}
    (h : f.contains (f.freeFrom id bound)) : ∀ i ≤ bound, f.contains (id + (i : Int)) := by
  induction bound generalizing id with
  | zero =>
    intro i hi
    rw [Nat.le_zero.1 hi, Int.natCast_zero, Int.add_zero]
    exact h
  | succ bound ih =>
    rw [freeFrom] at h
    split at h
    · next hid =>
      intro i hi
      cases i with
      | zero =>
        rw [Int.natCast_zero, Int.add_zero]
        exact hid
      | succ i =>
        have hi' := ih h i (Nat.le_of_succ_le_succ hi)
        rwa [Int.add_assoc, Int.add_comm 1, ← Int.natCast_succ] at hi'
    · contradiction

/-- As many ids as there are nodes can be taken, and the search goes on behind them. -/
theorem not_contains_freeFrom (f : Forest) (id : NodeId) : ¬ f.contains (f.freeFrom id f.size) := by
  intro h
  have htaken := contains_of_contains_freeFrom h
  have hinj : Function.Injective fun i : Nat => id + (i : Int) := fun i j hij =>
    Int.ofNat.inj (Int.add_left_cancel hij)
  have hle := length_le_size_of_nodup ((List.nodup_range (n := f.size + 1)).map hinj) fun k hk => by
    obtain ⟨i, hi, rfl⟩ := List.mem_map.1 hk
    exact htaken i (Nat.le_of_lt_succ (List.mem_range.1 hi))
  rw [List.length_map, List.length_range] at hle
  exact absurd hle (Nat.not_succ_le_self _)

theorem not_contains_nextId (f : Forest) : ¬ f.contains f.nextId.1 := f.not_contains_freeFrom _

/-- The search for a free id does not go past one. -/
theorem freeFrom_le {id : NodeId} (hle : id ≤ k) (hk : ¬ f.contains k) (bound : Nat) :
    f.freeFrom id bound ≤ k := by
  induction bound generalizing id with
  | zero => exact hle
  | succ bound ih =>
    rw [freeFrom]
    split
    · next hid =>
      have hne : id ≠ k := fun heq => hk (heq ▸ hid)
      exact ih (Int.add_one_le_of_lt (Int.lt_iff_le_and_ne.2 ⟨hle, hne⟩))
    · exact hle

theorem nextId_of_hasNext (h : f.hasNext) : f.nextId =
    (f.freeFrom (f.lastId + 1) f.size, { f with lastId := f.freeFrom (f.lastId + 1) f.size }) := by
  simp [nextId, h]

/-- A counter that does not run over goes up. -/
theorem lastId_lt_nextId (h : f.hasNext) : f.lastId < f.nextId.1 := by
  rw [nextId_of_hasNext h]
  exact Int.lt_of_lt_of_le (Int.lt_succ f.lastId) (f.le_freeFrom (f.lastId + 1) f.size)

theorem Consistent.nextId (hf : f.Consistent) : f.nextId.2.Consistent :=
  hf.of_get? rfl fun _ => rfl

/-! ### Room for new ids -/

/-- There is room for `n` more ids: the counter and the registered ids leave the last `n` words. -/
structure Room (f : Forest) (n : Nat) : Prop where
  lastId : Word.Leaves f.lastId n
  contains : ∀ {k}, f.contains k → Word.Leaves k n

namespace Room

variable {m n : Nat}

theorem mono (h : f.Room n) (hle : m ≤ n) : f.Room m where
  lastId := h.lastId.mono hle
  contains hk := (h.contains hk).mono hle

/-- An id that is given out takes up the room for one. -/
theorem leaves_freeFrom (h : f.Room (n + 1)) :
    Word.Leaves (f.freeFrom (f.lastId + 1) f.size) n :=
  freeFrom_le h.lastId.succ (fun hk => Word.not_leaves_succ n (h.contains hk)) f.size

theorem hasNext (h : f.Room (n + 1)) : f.hasNext := by
  rw [Forest.hasNext, decide_eq_true_eq]
  exact h.leaves_freeFrom.le_maxSigned

theorem overrun_nextId (h : f.Room (n + 1)) : f.nextId.2.overrun = f.overrun := by
  rw [nextId_of_hasNext h.hasNext]

theorem leaves_nextId (h : f.Room (n + 1)) : Word.Leaves f.nextId.1 n := by
  rw [nextId_of_hasNext h.hasNext]
  exact h.leaves_freeFrom

theorem nextId (h : f.Room (n + 1)) : f.nextId.2.Room n where
  lastId := h.leaves_nextId
  contains hk := (h.mono (Nat.le_succ n)).contains hk

theorem register {new : Node} (h : f.Room n) (hreg : f.register new = .ok f')
    (hnew : Word.Leaves new.id n) : f'.Room n where
  lastId := by
    rw [lastId_register hreg]
    exact Int.max_le.2 ⟨h.lastId, hnew⟩
  contains hk := by
    rcases (contains_register hreg).1 hk with rfl | hk
    · exact hnew
    · exact h.contains hk

end Room

theorem SameNodes.room {n : Nat} (h : SameNodes f f') (hf : f.Room n) : f'.Room n where
  lastId := h.lastId_eq.symm ▸ hf.lastId
  contains hk := hf.contains (h.contains_iff.1 hk)

theorem room_iff {n : Nat} : f.Room n ↔
    Word.Leaves f.lastId n ∧ ∀ k ∈ f.nodes.keys, Word.Leaves k n := by
  constructor
  · exact fun h => ⟨h.lastId, fun k hk => h.contains (Std.ExtTreeMap.mem_keys.1 hk)⟩
  · exact fun ⟨hlast, hkeys⟩ => ⟨hlast, fun hk => hkeys _ (Std.ExtTreeMap.mem_keys.2 hk)⟩

instance {n : Nat} : Decidable (f.Room n) := decidable_of_iff _ room_iff.symm

theorem room_of_le_lastId {n : Nat} (hbound : ∀ k, f.contains k → k ≤ f.lastId)
    (hroom : Word.Leaves f.lastId n) : f.Room n where
  lastId := hroom
  contains hk := Int.le_trans (hbound _ hk) hroom

end Forest

namespace Run

open Forest

variable {f g : Forest} {I : Forest → Prop}

/-! ### What giving out ids and registering keep -/

/-- A property that outlasts giving out ids and registering nodes. -/
structure Additive (I : Forest → Prop) : Prop where
  nextId : ∀ {f}, I f → I f.nextId.2
  register : ∀ {f g n}, I f → f.register n = .ok g → I g

theorem Additive.keeps_register (hI : Additive I) (n : Node) : Keeps I (Run.register n) :=
  fun _ hf => wp_register (fun _ hg => hI.register hf hg) hf

theorem Additive.keeps_nextId (hI : Additive I) : Keeps I Run.nextId :=
  fun _ hf => wp_nextId (hI.nextId hf)

theorem Additive.keeps_makeAt (hI : Additive I) (src : Span) (payload : Payload) :
    Keeps I (makeAt src payload) :=
  fun f hf => (hI.keeps_nextId f hf).andThen fun _ g hg => hI.keeps_register _ g hg

theorem keeps_checkOwned (h : Handle) : Keeps I (checkOwned h) :=
  fun _ hf => wp_ask (fun _ _ => hf) hf

/-- What one more new id keeps holds when all ids of a list have new ones. -/
theorem wp_rename_induction {P : List NodeId → Std.ExtTreeMap NodeId NodeId → Forest → Prop}
    (hstart : P [] ∅ f)
    (hstep : ∀ done names g id, P done names g →
      P (done ++ [id]) (names.insert id g.nextId.1) g.nextId.2) (ids : List NodeId) :
    wp (rename ids) (P ids) (fun _ => False) f := by
  have hloop : ∀ (ids done : List NodeId) (names : Std.ExtTreeMap NodeId NodeId) (g : Forest),
      P done names g → wp (ids.foldlM (fun names id => do return names.insert id (← nextId)) names)
        (P (done ++ ids)) (fun _ => False) g := by
    intro ids
    induction ids with
    | nil =>
      intro done names g hg
      rw [List.append_nil]
      exact wp_pure hg
    | cons id rest ih =>
      intro done names g hg
      rw [List.foldlM_cons, List.append_cons]
      exact wp_bind (wp_bind (wp_nextId (wp_pure (ih _ _ _ (hstep done names g id hg)))))
  exact hloop ids [] ∅ f hstart

theorem Additive.keeps_rename (hI : Additive I) (ids : List NodeId) : Keeps I (rename ids) := by
  intro f hf
  have hloop := wp_rename_induction (P := fun _ _ g => I g) hf (fun _ _ _ _ => hI.nextId) ids
  exact hloop.mono (fun _ _ h => h) fun _ h => h.elim

theorem Additive.keeps_copy (hI : Additive I) (h : Handle) : Keeps I (copy h) := by
  intro f hf
  refine (keeps_checkOwned h f hf).andThen fun _ f hf => ?_
  refine wp_bind (wp_ask (fun _ _ => wp_bind (wp_get ?_)) hf)
  refine (hI.keeps_rename _ f hf).andThen fun names g hg => ?_
  have hcopies : Keeps I ((f.walk h.id).reverse.forM (copyNode fun id => names.getD id id)) := by
    refine keeps_forM fun id _ g hg => wp_bind (wp_ask (fun n _ => ?_) hg)
    exact (hI.keeps_register _ g hg).andThen fun _ g hg => wp_pure hg
  exact (hcopies g hg).andThen fun _ g hg => wp_bind (wp_get (wp_pure hg))

/-! ### Making -/

/-- What is kept by giving out ids and by registering nodes is kept by making a node. -/
theorem wp_makeAt (hf : f.Consistent) (hI : I f) (hnext : ∀ g, I g → I g.nextId.2)
    (hregister : ∀ g g' n, I g → g.register n = .ok g' → I g') (src : Span) {payload : Payload}
    (hnodup : payload.children.Nodup) :
    wp (makeAt src payload) (fun _ g => g.Consistent ∧ I g) (fun g => g.Consistent ∧ I g) f :=
  wp_bind (wp_nextId (wp_register
    (fun g' hg' => ⟨hf.nextId.register hg' rfl hnodup, hregister _ g' _ (hnext f hI) hg'⟩)
    ⟨hf.nextId, hnext f hI⟩))

/-! ### Copying -/

theorem wp_rename (ids : List NodeId) (hI : I f) (hnext : ∀ g, I g → I g.nextId.2) :
    wp (rename ids) (fun _ g => I g ∧ ∀ k, g.get? k = f.get? k) (fun _ => False) f :=
  wp_rename_induction (P := fun _ _ g => I g ∧ ∀ k, g.get? k = f.get? k) ⟨hI, fun _ => rfl⟩
    (fun _ _ g _ ⟨hg, hget⟩ => ⟨hnext g hg, hget⟩) ids

/-- Copying is giving out new ids and making copies under them. -/
theorem wp_copy_of (hI : I f) (hnext : ∀ g, I g → I g.nextId.2) (h : Handle)
    (hcopies : ∀ (name : NodeId → NodeId) g, I g → (∀ k, g.get? k = f.get? k) →
      wp ((f.walk h.id).reverse.forM (copyNode name)) (fun _ => I) I g) :
    wp (copy h) (fun _ => I) I f := by
  refine wp_bind (wp_ask (fun _ _ => ?_) hI)
  refine wp_bind (wp_ask (fun _ _ => ?_) hI)
  refine wp_bind (wp_get ?_)
  refine wp_bind ((wp_rename (f.walk h.id) hI hnext).mono (fun names g ⟨hg, hget⟩ => ?_)
    fun _ hE => hE.elim)
  exact (hcopies _ g hg hget).andThen fun _ g' hg' => wp_bind (wp_get (wp_pure hg'))

/-- What the copy of one more node keeps, when its children have been copied, holds of the copy of a
tree. -/
theorem wp_copyNodes_induction {P : List NodeId → Forest → Prop} {E : Forest → Prop}
    {name : NodeId → NodeId} {r : NodeId} (hf : f.Consistent) (hstart : P [] g)
    (hstep : ∀ a done g, Turn f (f.walk r) done a → P done g →
      wp (copyNode name a) (fun _ => P (a :: done)) E g) :
    wp ((f.walk r).reverse.forM (copyNode name)) (fun _ => P (f.walk r)) E g := by
  have hloop : ∀ (before done : List NodeId) (g : Forest), f.walk r = before ++ done → P done g →
      wp (before.reverse.forM (copyNode name)) (fun _ => P (f.walk r)) E g := by
    intro before
    induction before using List.reverseRecOn with
    | nil =>
      intro done g hwalk hg
      rw [hwalk]
      exact wp_pure hg
    | append_singleton before a ih =>
      intro done g hwalk hg
      rw [List.append_assoc, List.singleton_append] at hwalk
      rw [List.reverse_append, List.reverse_singleton, List.singleton_append]
      exact (hstep a done g (hf.turn hwalk) hg).andThen fun _ g' hg' => ih (a :: done) g' hwalk hg'
  exact hloop (f.walk r) [] g (List.append_nil _).symm hstart

/-- What copying keeps: the nodes of the forest it began in list the same children, and the copies
are registered under different ids. -/
structure Copying (I : Forest → Prop) (f : Forest) (name : NodeId → NodeId) (done : List NodeId)
    (g : Forest) : Prop where
  consistent : g.Consistent
  kept : I g
  contains : ∀ {k}, f.contains k → g.contains k
  children_eq : ∀ {k}, f.contains k → g.children k = f.children k
  contains_copy : ∀ {a}, a ∈ done → g.contains (name a)
  inj : ∀ {a b}, a ∈ done → b ∈ done → name a = name b → a = b

/-- A copied node lists no child twice, so the forest stays consistent. -/
theorem wp_copyNode (hf : f.Consistent) (hregister : ∀ g g' n, I g → g.register n = .ok g' → I g')
    {name : NodeId → NodeId} {r a : NodeId} {done : List NodeId}
    (hturn : Turn f (f.walk r) done a) (hg : Copying I f name done g) :
    wp (copyNode name a) (fun _ => Copying I f name (a :: done)) (fun g => g.Consistent ∧ I g)
      g := by
  have hends : g.Consistent ∧ I g := ⟨hg.consistent, hg.kept⟩
  have hreg : f.contains a := contains_of_mem_walkWithin hturn.mem
  refine wp_bind (wp_ask (fun n hn => ?_) hends)
  have hchildren : n.children = f.children a := by
    rw [← children_of_get? (node_eq_ok.1 hn), hg.children_eq hreg]
  have hnodup : (n.payload.rename name).children.Nodup := by
    -- the children have been copied, and their copies have different ids
    have hin : ∀ c ∈ n.children, c ∈ done := fun c hc => hturn.children_subset (hchildren ▸ hc)
    have hnodup : n.children.Nodup := hchildren ▸ hf.nodup a
    rw [Payload.children_rename]
    exact hnodup.map_on fun a ha b hb hab => hg.inj (hin a ha) (hin b hb) hab
  refine wp_bind (wp_register (fun g' hg' => wp_pure ?_) hends)
  -- registration would have failed on the id of a node that was there before
  have hfresh : ¬ g.contains (name a) := (register_eq_ok hg').1
  have hne : ∀ {b}, b ∈ done → name a ≠ name b := fun hb heq =>
    hfresh (heq ▸ hg.contains_copy hb)
  refine ⟨hg.consistent.register hg' rfl hnodup, hregister g g' _ hg.kept hg', fun hk => ?_,
    fun {k} hk => ?_, fun {b} hb => ?_, fun {b c} hb hc hbc => ?_⟩
  · exact (contains_register hg').2 (.inr (hg.contains hk))
  · rw [children_register hg', if_neg, hg.children_eq hk]
    show k ≠ name a
    rintro rfl
    exact hfresh (hg.contains hk)
  · rcases List.mem_cons.1 hb with rfl | hb
    · exact (contains_register hg').2 (.inl rfl)
    · exact (contains_register hg').2 (.inr (hg.contains_copy hb))
  · rcases List.mem_cons.1 hb with hb | hb <;> rcases List.mem_cons.1 hc with hc | hc
    · rw [hb, hc]
    · exact absurd hbc (hb ▸ hne hc)
    · exact absurd hbc.symm (hc ▸ hne hb)
    · exact hg.inj hb hc hbc

/-- Copying a tree keeps the forest consistent, and all that giving out ids and registering keep. -/
theorem wp_copy (hf : f.Consistent) (hI : I f) (hnext : ∀ g, I g → I g.nextId.2)
    (hregister : ∀ g g' n, I g → g.register n = .ok g' → I g') (h : Handle) :
    wp (copy h) (fun _ g => g.Consistent ∧ I g) (fun g => g.Consistent ∧ I g) f := by
  refine wp_copy_of ⟨hf, hI⟩ (fun g hg => ⟨hg.1.nextId, hnext g hg.2⟩) h
    fun name g ⟨hg, hIg⟩ hget => ?_
  have hstart : Copying I f name [] g := by
    refine ⟨hg, hIg, fun {k} hk => ?_, fun {k} _ => ?_, nofun, nofun⟩
    · rwa [contains_iff_get?, hget, ← contains_iff_get?]
    · rw [children, hget, children]
  have hloop := wp_copyNodes_induction (r := h.id) hf hstart fun a done g hturn hg =>
    wp_copyNode hf hregister hturn hg
  exact hloop.mono (fun _ g' hg' => ⟨hg'.consistent, hg'.kept⟩) fun _ h => h

end Run

end SolidityTree
