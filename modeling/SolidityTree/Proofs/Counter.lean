import SolidityTree.Proofs.Additions
import SolidityTree.Proofs.Growth

/-!
# The counter of ids

As long as the counter has not run over, no registered id is above it.  So the next id is the one
after the counter and the search for a free id is not needed, unless the counter is at the largest
word: then it runs over, and the next id is found from the smallest word on (`nextId_calls`).  This
holds of every forest that a caller can get, by whatever calls, failed ones included: nodes of any
id may be registered, transactions need not be balanced, and no call needs a consistent forest.

That the counter bounds the ids is not enough to carry this through a rollback, which puts the
counter back to where it was when the transaction was begun.  What carries it is that the ids above
that are noted in the transaction or in one inside it (`Forest.Counted`): the rollback forgets the
former, and a transaction that is committed hands what it has noted to the one around it.  A
rollback also takes back that the counter has run over, if it had not when the transaction was
begun.

What the calls do to the counter, the transactions and the registered ids is a matter of six cases,
which are the fields of `Run.Lasting`; `Forest.lasting_counted` goes through them.
-/

namespace SolidityTree

open Forest

variable {f g h : Forest} {id parent : NodeId}

namespace Forest

/-! ### Forests with fewer nodes -/

/-- No node is new, and the counter and the transactions are the same. -/
structure Fewer (f g : Forest) : Prop where
  contains_of_contains : ∀ {k}, g.contains k → f.contains k
  lastId_eq : g.lastId = f.lastId
  overrun_eq : g.overrun = f.overrun
  transactions_eq : g.transactions = f.transactions

theorem Fewer.trans (hfg : Fewer f g) (hgh : Fewer g h) : Fewer f h where
  contains_of_contains hk := hfg.contains_of_contains (hgh.contains_of_contains hk)
  lastId_eq := hgh.lastId_eq.trans hfg.lastId_eq
  overrun_eq := hgh.overrun_eq.trans hfg.overrun_eq
  transactions_eq := hgh.transactions_eq.trans hfg.transactions_eq

theorem SameNodes.fewer (hfg : SameNodes f g) : Fewer f g where
  contains_of_contains := hfg.contains_iff.1
  lastId_eq := hfg.lastId_eq
  overrun_eq := hfg.overrun_eq
  transactions_eq := hfg.transactions_eq

theorem fewer_erase (f : Forest) (ids : List NodeId) : Fewer f (f.erase ids) where
  contains_of_contains hk := ((contains_erase ids).1 hk).2
  lastId_eq := rfl
  overrun_eq := rfl
  transactions_eq := rfl

/-! ### Edits of any forest -/

/-- A change of a node keeps the nodes if it keeps the stamp. -/
theorem sameNodes_modify (f : Forest) (id : NodeId) {change : Node → Node}
    (h : ∀ n, ((change n).id, (change n).forest?) = (n.id, n.forest?)) :
    SameNodes f (f.modify id change) := by
  refine ⟨rfl, rfl, rfl, rfl, fun k => ?_⟩
  rw [stamp?, get?_modify, stamp?]
  split
  · rw [Option.map_map]
    exact congrArg (Option.map · (f.get? k)) (funext h)
  · rfl

theorem sameNodes_append {c : Handle} (happ : f.append parent c = .ok g) : SameNodes f g := by
  obtain ⟨-, n, payload, -, -, rfl⟩ := append_eq_ok happ
  exact .attach ..

theorem sameNodes_prepend {c : Handle} (hpre : f.prepend parent c = .ok g) : SameNodes f g := by
  obtain ⟨-, n, payload, -, -, rfl⟩ := prepend_eq_ok hpre
  exact .attach ..

theorem sameNodes_replace {new : Handle} {old : NodeId} (hrep : f.replace parent new old = .ok g) :
    SameNodes f g := by
  rcases replace_eq_ok hrep with ⟨-, rfl⟩ | ⟨-, n, payload, -, -, -, rfl⟩
  · exact .refl g
  · exact (SameNodes.setParent f old none).trans (.attach ..)

theorem sameNodes_remove {child : NodeId} (hrem : f.remove parent child = .ok g) :
    SameNodes f g := by
  obtain ⟨n, payload, -, -, rfl⟩ := remove_eq_ok hrem
  exact (SameNodes.modifyPayload f parent _).trans (.setParent ..)

theorem fewer_unregister {n : Node} (hun : f.unregister id = .ok (n, g)) : Fewer f g := by
  obtain ⟨-, -, rfl⟩ := unregister_eq_ok hun
  exact (fewer_erase f [id]).trans (SameNodes.setParents ..).fewer

theorem fewer_removeSubtree {count : Nat} (hrem : f.removeSubtree id = .ok (count, g)) :
    Fewer f g := by
  obtain ⟨n, -, hrem⟩ := Except.bind_eq_ok.1 hrem
  dsimp only at hrem
  split at hrem
  · obtain ⟨h, hh, hrem⟩ := Except.bind_eq_ok.1 hrem
    obtain rfl := congrArg Prod.snd (Except.ok.inj hrem)
    exact (sameNodes_remove hh).fewer.trans (fewer_erase h _)
  · obtain rfl := congrArg Prod.snd (Except.ok.inj hrem)
    exact fewer_erase f _

end Forest

/-! ### What calls keep -/

namespace Run

variable {I : Forest → Prop}

/-- A property that outlasts what calls do to the counter, the transactions and the registered
ids. -/
structure Lasting (I : Forest → Prop) : Prop extends Additive I where
  fewer : ∀ {f g}, I f → Fewer f g → I g
  begin : ∀ {f}, I f → I f.begin
  commit : ∀ {f}, I f → I f.commit
  rollback : ∀ {f}, I f → I f.rollback

namespace Lasting

theorem sameNodes (hI : Lasting I) (hf : I f) (hfg : SameNodes f g) : I g := hI.fewer hf hfg.fewer

/-- A change that may fail is harmless if it only leaves other payloads and marks. -/
theorem keeps_edit (hI : Lasting I) {change : Forest → Except Fault Forest}
    (hchange : ∀ {f g}, change f = .ok g → SameNodes f g) : Keeps I (edit change) :=
  fun _ hf => wp_edit (fun _ hg => hI.sameNodes hf (hchange hg)) hf

theorem keeps_modifyPayload (hI : Lasting I) (id : NodeId) (change : Payload → Payload) :
    Keeps I (modify (Forest.modifyPayload · id change)) :=
  fun f hf => wp_modify (hI.sameNodes hf (.modifyPayload f id change))

theorem keeps_setParent (hI : Lasting I) (id : NodeId) (p? : Option NodeId) :
    Keeps I (modify (Forest.setParent · id p?)) :=
  fun f hf => wp_modify (hI.sameNodes hf (.setParent f id p?))

theorem keeps_transaction (hI : Lasting I) {α : Type} {run : Run α} (hrun : Keeps I run) :
    Keeps I (transaction run) := fun f hf =>
  wp_transaction ((hrun f.begin (hI.begin hf)).mono (fun _ _ => hI.commit) fun _ => hI.rollback)

/-! ### Documentation -/

theorem keeps_detach (hI : Lasting I) (owner : NodeId) (d? : Option Documentation) :
    Keeps I (detach owner d?) := by
  intro f hf
  unfold detach
  split
  · exact hI.keeps_edit (fun hg => sameNodes_remove hg) f hf
  · exact wp_pure hf

theorem keeps_setDocumentationText (hI : Lasting I) (id : NodeId) (text? : Option String) :
    Keeps I (setDocumentationText id text?) := by
  intro f hf
  refine wp_bind (wp_ask (fun old _ => ?_) hf)
  refine (hI.keeps_detach id old f hf).andThen fun _ g hg => ?_
  exact wp_bind (wp_ask (fun n _ => hI.keeps_modifyPayload id _ g hg) hg)

theorem keeps_setDanglingText (hI : Lasting I) (id : NodeId) (text? : Option String) :
    Keeps I (setDanglingText id text?) := by
  intro f hf
  refine wp_bind (wp_ask (fun old _ => ?_) hf)
  refine (hI.keeps_detach id old f hf).andThen fun _ g hg => ?_
  exact wp_bind (wp_ask (fun n _ => hI.keeps_modifyPayload id _ g hg) hg)

theorem keeps_attachDocumentation (hI : Lasting I) (id : NodeId) (doc : Handle) :
    Keeps I (attachDocumentation id doc) := by
  intro f hf
  refine wp_bind (wp_ask (fun old _ => wp_bind (wp_ask (fun _ _ => ?_) hf)) hf)
  refine wp_bind (wp_ask (fun n _ => ?_) hf)
  split
  · -- a container
    refine (hI.keeps_modifyPayload id _ f hf).andThen fun _ g hg => ?_
    split
    · exact hI.keeps_edit (fun hg => sameNodes_replace hg) g hg
    · exact hI.keeps_edit (fun hg => sameNodes_prepend hg) g hg
  · -- a kind with a field for documentation
    refine (hI.keeps_modifyPayload id _ f hf).andThen fun _ g hg => ?_
    split
    · exact (hI.keeps_setParent _ none g hg).andThen fun _ g hg => hI.keeps_setParent _ _ g hg
    · exact wp_bind (wp_pure (hI.keeps_setParent _ _ g hg))

theorem keeps_attachDangling (hI : Lasting I) (id : NodeId) (doc : Handle) :
    Keeps I (attachDangling id doc) := by
  intro f hf
  refine wp_bind (wp_ask (fun old _ => wp_bind (wp_ask (fun _ _ => ?_) hf)) hf)
  refine wp_bind (wp_ask (fun n _ => ?_) hf)
  refine (hI.keeps_modifyPayload id _ f hf).andThen fun _ g hg => ?_
  split
  · exact hI.keeps_edit (fun hg => sameNodes_replace hg) g hg
  · exact hI.keeps_edit (fun hg => sameNodes_append hg) g hg

/-! ### Passes -/

theorem keeps_assembly (hI : Lasting I) (config : Config) (id : NodeId) :
    Keeps I (Assembly.process config id) := by
  intro f hf
  refine wp_bind (wp_get ?_)
  split
  · exact wp_pure hf
  · next tree _ =>
    have hconvert := hI.keeps_convert config .modern config.maxDepth tree
    refine (hI.keeps_transaction hconvert f hf).andThen fun yul g hg => ?_
    have hadopt : Keeps I (Assembly.adopt id yul) := fun g hg => by
      refine wp_bind (wp_get ?_)
      split
      · exact wp_throw hg
      · exact wp_bind (wp_modify (wp_pure (hI.sameNodes hg (.attach ..))))
    refine (hadopt g hg).andThen fun references g hg => wp_bind (wp_get ?_)
    have hlink : Keeps I ((g.walk yul).forM fun n =>
        modify (Forest.modify · n (Assembly.link references))) := by
      refine keeps_forM fun n _ g hg => wp_modify (hI.sameNodes hg ?_)
      refine sameNodes_modify g n fun m => ?_
      rcases Assembly.link_eq_mapPayload references m with hlink | ⟨target, hlink⟩
      · rw [hlink]
      · rw [hlink]
        rfl
    exact (hlink g hg).andThen fun _ g hg => wp_pure hg

theorem keeps_builtin (hI : Lasting I) (id : NodeId) : Keeps I (Builtin.process id) := by
  intro f hf
  refine wp_bind (wp_ask (fun n _ => wp_bind (wp_get ?_)) hf)
  split
  · exact (hI.keeps_modifyPayload id _ f hf).andThen fun _ g hg => wp_pure hg
  · exact wp_pure hf

theorem keeps_makeComment (hI : Lasting I) (owner : NodeId) (found : Comments.Found) :
    Keeps I (Comments.make owner found) :=
  fun f hf => wp_bind (wp_get (hI.keeps_makeAt _ _ f hf))

theorem keeps_comments (hI : Lasting I) (config : Config) (id : NodeId) :
    Keeps I (Comments.process config id) := by
  have hpreceding : ∀ source, Keeps I (Comments.recoverPreceding source id) := by
    intro source f hf
    refine wp_bind (wp_get ?_)
    split
    · exact wp_pure hf
    · split
      · exact wp_pure hf
      · next found _ =>
        refine (hI.keeps_makeComment id found f hf).andThen fun doc g hg => ?_
        exact (hI.keeps_attachDocumentation id doc g hg).andThen fun _ g hg => wp_pure hg
  have hdangling : ∀ source, Keeps I (Comments.recoverDangling source id) := by
    intro source f hf
    refine wp_bind (wp_ask (fun n _ => wp_bind (wp_get ?_)) hf)
    split
    · exact wp_pure hf
    · split
      · exact wp_pure hf
      · next found _ =>
        refine (hI.keeps_makeComment id found f hf).andThen fun doc g hg => ?_
        exact (hI.keeps_attachDangling id doc g hg).andThen fun _ g hg => wp_pure hg
  intro f hf
  refine wp_bind (wp_get ?_)
  split
  · exact wp_pure hf
  · next source _ =>
    refine (hpreceding source f hf).andThen fun _ g hg => ?_
    exact (hdangling source g hg).andThen fun _ g hg => wp_pure hg

theorem keeps_postprocess (hI : Lasting I) (config : Config) (units : List NodeId) :
    Keeps I (postprocess config units) := by
  have hprocess : ∀ p ∈ Pass.standard, ∀ id, Keeps I (p.process config id) := by
    intro p hp id
    simp only [Pass.standard, List.mem_cons, List.not_mem_nil, or_false] at hp
    rcases hp with rfl | rfl | rfl
    · exact hI.keeps_assembly config id
    · exact hI.keeps_builtin id
    · exact hI.keeps_comments config id
  have hvisit : ∀ p ∈ Pass.standard, ∀ id, Keeps I (p.visit config id) := by
    intro p hp id f hf
    refine wp_bind (wp_get ?_)
    split
    · exact (hprocess p hp id f hf).andThen fun _ g hg => wp_pure hg
    · exact wp_pure hf
  refine keeps_forM fun p hp => keeps_forM fun unit _ f hf => wp_bind (wp_get ?_)
  exact keeps_forM (fun k _ => hvisit p hp k) f hf

/-! ### Reading -/

theorem keeps_readRoots (hI : Lasting I) (config : Config) (roots : List Output.Root) :
    Keeps I (readRoots config roots) := by
  induction roots with
  | nil => exact fun f hf => wp_pure hf
  | cons root rest ih =>
    have hroot : Keeps I (readRoot config root) := by
      intro f hf
      unfold readRoot
      split
      · exact wp_throw hf
      · next schema _ =>
        have hconvert := hI.keeps_convert config schema config.maxDepth root.record
        refine (hconvert f hf).andThen fun id g hg => wp_bind (wp_get ?_)
        dsimp only
        split
        · exact wp_bind (wp_throw hg)
        · exact (hI.keeps_modifyPayload id _ g hg).andThen fun _ g hg => wp_pure hg
    intro f hf
    refine (hroot f hf).andThen fun id g hg => ?_
    exact (ih g hg).andThen fun ids g hg => wp_pure hg

theorem keeps_read (hI : Lasting I) (config : Config) (output : Json) :
    Keeps I (read config output) := by
  intro f hf
  refine wp_bind (wp_ask (fun roots _ => ?_) hf)
  refine hI.keeps_transaction (fun f hf => ?_) f hf
  refine (hI.keeps_readRoots config roots f hf).andThen fun ids g hg => wp_bind (wp_get ?_)
  dsimp only
  split
  · exact (hI.keeps_postprocess config _ g hg).andThen fun _ g hg => wp_pure hg
  · exact wp_pure hg

/-! ### Calls as data -/

theorem keeps_addition (hI : Lasting I) (a : Addition) : Keeps I a.run := by
  intro f hf
  cases a with
  | nextId => exact (hI.keeps_nextId f hf).andThen fun _ _ h => wp_pure h
  | register n => exact (hI.keeps_register n f hf).andThen fun _ _ h => wp_pure h
  | make m => exact (hI.keeps_maker m f hf).andThen fun _ _ h => wp_pure h
  | copy root => exact (hI.keeps_copy root f hf).andThen fun _ _ h => wp_pure h
  | read config output =>
    exact (hI.keeps_read config output f hf).andThen fun _ _ h => wp_pure h

theorem keeps_treeEdit (hI : Lasting I) (e : Edit) : Keeps I e.run := by
  cases e with
  | append parent child => exact hI.keeps_edit fun hg => sameNodes_append hg
  | prepend parent child => exact hI.keeps_edit fun hg => sameNodes_prepend hg
  | remove parent child => exact hI.keeps_edit fun hg => sameNodes_remove hg
  | replace parent new old => exact hI.keeps_edit fun hg => sameNodes_replace hg
  | unregister id =>
    exact fun f hf => wp_bind (wp_editWith
      (fun _ _ hg => wp_pure (hI.fewer hf (fewer_unregister hg))) hf)
  | removeSubtree id =>
    exact fun f hf => wp_bind (wp_editWith
      (fun _ _ hg => wp_pure (hI.fewer hf (fewer_removeSubtree hg))) hf)
  | setDocumentationText id text? => exact hI.keeps_setDocumentationText id text?
  | attachDocumentation id doc => exact hI.keeps_attachDocumentation id doc
  | setDanglingText id text? => exact hI.keeps_setDanglingText id text?
  | attachDangling id doc => exact hI.keeps_attachDangling id doc
  | copy root => exact fun f hf => (hI.keeps_copy root f hf).andThen fun _ _ h => wp_pure h

end Lasting

end Run

/-- A call that changes a forest, with its arguments. -/
inductive Call where
  | add (a : Addition)
  | edit (e : Edit)
  | postprocess (config : Config) (units : List NodeId)
  | begin
  | commit
  | rollback

namespace Call

/-- The run that a call names; what it answers is dropped. -/
def run : Call → Run Unit
  | add a => a.run
  | edit e => e.run
  | postprocess config units => Run.postprocess config units
  | begin => modify Forest.begin
  | commit => modify Forest.commit
  | rollback => modify Forest.rollback

theorem keeps {I : Forest → Prop} (hI : Run.Lasting I) (c : Call) : Run.Keeps I c.run := by
  cases c with
  | add a => exact hI.keeps_addition a
  | edit e => exact hI.keeps_treeEdit e
  | postprocess config units => exact hI.keeps_postprocess config units
  | begin => exact fun _ hf => Run.wp_modify (hI.begin hf)
  | commit => exact fun _ hf => Run.wp_modify (hI.commit hf)
  | rollback => exact fun _ hf => Run.wp_modify (hI.rollback hf)

end Call

/-- The forest after calls made one after another, whatever comes of each; the calls of transactions
need not be balanced. -/
def calls (cs : List Call) (f : Forest) : Forest := cs.foldl (fun f c => c.run.after f) f

namespace Forest

variable {inner inner' : List NodeId} {ts : List Transaction}

/-- Each of some open transactions that were begun before the counter ran over accounts for the
registered ids above the counter that it would restore: they are noted in it or inside it.  The ids
noted inside the first one are given. -/
def Accounted (f : Forest) : List NodeId → List Transaction → Prop
  | _, [] => True
  | inner, t :: outer =>
    (¬ t.overrun → ∀ k, f.contains k → t.lastId < k → k ∈ inner ++ t.registered) ∧
      Accounted f (inner ++ t.registered) outer

/-- Nothing more must be accounted for if the ids that are not noted inside were there before and
were not noted either. -/
theorem Accounted.imp (hf : f.Accounted inner ts)
    (hk : ∀ k, g.contains k → k ∉ inner' → f.contains k ∧ k ∉ inner) : g.Accounted inner' ts := by
  -- on the transactions from the inside out; what one notes is inside the next one
  induction ts generalizing inner inner' with
  | nil => trivial
  | cons t outer ih =>
    obtain ⟨ht, houter⟩ := hf
    refine ⟨fun hover k hg hlt => ?_, ih houter fun k hg hnot => ?_⟩
    · by_contra hnot
      rw [List.mem_append, not_or] at hnot
      obtain ⟨hreg, hin⟩ := hk k hg hnot.1
      exact (List.mem_append.1 (ht hover k hreg hlt)).elim hin hnot.2
    · rw [List.mem_append, not_or] at hnot ⊢
      obtain ⟨hreg, hin⟩ := hk k hg hnot.1
      exact ⟨hreg, hin, hnot.2⟩

/-- The counter bounds the registered ids unless it has run over, and goes on to do so if
transactions are rolled back. -/
structure Counted (f : Forest) : Prop where
  le_lastId : ¬ f.overrun → ∀ {k}, f.contains k → k ≤ f.lastId
  accounted : f.Accounted [] f.transactions

namespace Counted

/-- A greater counter bounds the ids as well. -/
theorem nextId (hf : f.Counted) : f.nextId.2.Counted where
  le_lastId hover k hk := by
    obtain ⟨hnot, hnext⟩ : ¬ f.overrun ∧ f.hasNext := by
      have hover : ¬ (f.overrun || !f.hasNext) = true := hover
      simpa using hover
    exact Int.le_trans (hf.le_lastId hnot hk) (Int.le_of_lt (lastId_lt_nextId hnext))
  accounted := hf.accounted.imp fun _ hk hnot => ⟨hk, hnot⟩

theorem fewer (hf : f.Counted) (hfg : Fewer f g) : g.Counted where
  le_lastId hover _ hk := hfg.lastId_eq ▸
    hf.le_lastId (hfg.overrun_eq ▸ hover) (hfg.contains_of_contains hk)
  accounted := hfg.transactions_eq ▸
    hf.accounted.imp fun _ hk hnot => ⟨hfg.contains_of_contains hk, hnot⟩

/-- The id of a new node is noted in the innermost transaction, and so inside all others. -/
theorem register (hf : f.Counted) {n : Node} (hreg : f.register n = .ok g) : g.Counted := by
  refine ⟨fun hover k hk => ?_, ?_⟩
  · rw [overrun_register hreg] at hover
    rw [lastId_register hreg]
    rcases (contains_register hreg).1 hk with rfl | hk
    · exact Int.le_max_right _ _
    · exact Int.le_trans (hf.le_lastId hover hk) (Int.le_max_left _ _)
  · have hold := hf.accounted
    rw [transactions_register hreg]
    cases htransactions : f.transactions with
    | nil => trivial
    | cons t outer =>
      rw [htransactions] at hold
      obtain ⟨ht, houter⟩ := hold
      refine ⟨fun hover k hk hlt => ?_, houter.imp fun k hk hnot => ?_⟩
      · rcases (contains_register hreg).1 hk with rfl | hk
        · exact List.mem_cons_self
        · exact List.mem_cons_of_mem _ (ht hover k hk hlt)
      · have hne : k ≠ n.id := fun heq => hnot (heq ▸ List.mem_cons_self)
        exact ⟨((contains_register hreg).1 hk).resolve_left hne,
          fun hin => hnot (List.mem_cons_of_mem _ hin)⟩

/-- The counter that a new transaction would restore bounds all ids. -/
theorem begin (hf : f.Counted) : f.begin.Counted where
  le_lastId hover _ hk := hf.le_lastId hover hk
  accounted := ⟨fun hover _ hk hlt => absurd (hf.le_lastId hover hk) (Int.not_le_of_gt hlt),
    hf.accounted.imp fun _ hk hnot => ⟨hk, hnot⟩⟩

/-- What the closed transaction has noted is handed on to the one around it. -/
theorem commit (hf : f.Counted) : f.commit.Counted := by
  refine ⟨fun hover k hk => ?_, ?_⟩
  · rw [overrun_commit] at hover
    rw [contains_commit] at hk
    rw [lastId_commit]
    exact hf.le_lastId hover hk
  have hold := hf.accounted
  cases htransactions : f.transactions with
  | nil =>
    have hsame : f.commit = f := by rw [Forest.commit, htransactions]
    rw [hsame]
    exact hold
  | cons t outer =>
    rw [htransactions] at hold
    cases outer with
    | nil =>
      rw [Forest.commit, htransactions]
      trivial
    | cons o rest =>
      obtain ⟨-, ho, hrest⟩ := hold
      have hsame : ∀ k, f.commit.contains k → f.contains k := fun k hk => contains_commit ▸ hk
      rw [List.nil_append] at ho hrest
      have hcommit : f.commit.transactions =
          { o with registered := t.registered ++ o.registered } :: rest := by
        rw [Forest.commit, htransactions]
      rw [hcommit]
      exact ⟨fun hover k hk => ho hover k (hsame k hk),
        hrest.imp fun k hk hnot => ⟨hsame k hk, hnot⟩⟩

/-- The ids above the restored counter are forgotten, and those that stay were not noted. -/
theorem rollback (hf : f.Counted) : f.rollback.Counted := by
  have hold := hf.accounted
  cases htransactions : f.transactions with
  | nil =>
    rw [Forest.rollback, htransactions]
    exact hf
  | cons t outer =>
    rw [htransactions] at hold
    obtain ⟨ht, houter⟩ := hold
    have hcontains : ∀ {k}, f.rollback.contains k → k ∉ t.registered ∧ f.contains k :=
      (contains_rollback htransactions).1
    have hrollback := rollback_eq htransactions
    refine ⟨fun hover k hk => ?_, ?_⟩
    · obtain ⟨hnot, hk⟩ := hcontains hk
      have hbegun : f.rollback.overrun = t.overrun := by rw [hrollback]
      have hlast : f.rollback.lastId = t.lastId := by rw [hrollback]
      rw [hbegun] at hover
      rw [hlast]
      exact Int.not_lt.1 fun hlt => hnot (ht hover k hk hlt)
    · have hrest : f.rollback.transactions = outer := by rw [hrollback]
      rw [hrest]
      exact houter.imp fun k hk _ => ⟨(hcontains hk).2, (hcontains hk).1⟩

end Counted

end Forest

end SolidityTree
