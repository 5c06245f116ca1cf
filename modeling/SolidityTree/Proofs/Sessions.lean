import SolidityTree.Proofs.Documentation
import SolidityTree.Proofs.Making

/-!
# Sessions

The edits of a tree that a caller can ask for, as data (`Edit`), and with them the registration of
new nodes (`Step`).  Every edit keeps a forest consistent, whether it succeeds or fails
(`keeps_edit`), and every registration of a proper node does (`keeps_step`); so does a session,
which is a list of steps, each taken whatever came of the one before (`session_induction`).

What else a session keeps is a matter of four cases: ids are given out, nodes are registered, nodes
are kept, and nodes are forgotten (`Kept`).
-/

namespace SolidityTree

/-! ### Edits as data -/

/-- An edit of a tree with its arguments. -/
inductive Edit where
  | append (parent : NodeId) (child : Handle)
  | prepend (parent : NodeId) (child : Handle)
  | remove (parent child : NodeId)
  | replace (parent : NodeId) (new : Handle) (old : NodeId)
  | unregister (id : NodeId)
  | removeSubtree (id : NodeId)
  | setDocumentationText (id : NodeId) (text? : Option String)
  | attachDocumentation (id : NodeId) (doc : Handle)
  | setDanglingText (id : NodeId) (text? : Option String)
  | attachDangling (id : NodeId) (doc : Handle)
  | copy (root : Handle)

namespace Edit

/-- The run that an edit names; what it answers is dropped. -/
def run : Edit → Run Unit
  | append parent child => Run.edit (Forest.append · parent child)
  | prepend parent child => Run.edit (Forest.prepend · parent child)
  | remove parent child => Run.edit (Forest.remove · parent child)
  | replace parent new old => Run.edit (Forest.replace · parent new old)
  | unregister id => do let _ ← Run.editWith (Forest.unregister · id)
  | removeSubtree id => do let _ ← Run.editWith (Forest.removeSubtree · id)
  | setDocumentationText id text? => Run.setDocumentationText id text?
  | attachDocumentation id doc => Run.attachDocumentation id doc
  | setDanglingText id text? => Run.setDanglingText id text?
  | attachDangling id doc => Run.attachDangling id doc
  | copy root => do let _ ← Run.copy root

/-- Whether an edit forgets nodes. -/
def forgets : Edit → Bool
  | unregister _ | removeSubtree _ => true
  | _ => false

end Edit

/-! ### What edits keep -/

open Forest

variable {f g : Forest} {I : Forest → Prop} {forgetful : Bool}

/-- A property that outlasts what the parts of an edit do to a forest. -/
structure Kept (I : Forest → Prop) (forgetful : Bool) : Prop where
  nextId : ∀ {f}, I f → I f.nextId.2
  register : ∀ {f g n}, I f → f.register n = .ok g → I g
  sameNodes : ∀ {f g}, I f → SameNodes f g → I g
  /-- Nodes are forgotten; this is asked for only where edits may do so. -/
  forget : forgetful → ∀ {f g}, I f → g.id = f.id → g.lastId = f.lastId →
    g.transactions = f.transactions → I g

/-- **Every edit keeps a forest consistent**, if it fails as well as if it succeeds. -/
theorem keeps_edit (hI : Kept I forgetful) (e : Edit) (he : e.forgets → forgetful) :
    Run.Keeps (fun g => g.Consistent ∧ I g) e.run := by
  intro f ⟨hf, hIf⟩
  have hreshaped : ∀ g, Reshaped f g → g.Consistent ∧ I g := fun g hg =>
    ⟨hg.consistent, hI.sameNodes hIf hg.sameNodes⟩
  have hdocumentation : ∀ {run : Run Unit}, Run.Keeps (Reshaped f) run →
      Run.wp run (fun _ g => g.Consistent ∧ I g) (fun g => g.Consistent ∧ I g) f :=
    fun hrun => (hrun f (.refl hf)).mono (fun _ => hreshaped) hreshaped
  cases e with
  -- a single edit, which fails without effect
  | append parent child =>
    exact Run.wp_edit (fun g hg => hreshaped g (hf.append hg)) ⟨hf, hIf⟩
  | prepend parent child =>
    exact Run.wp_edit (fun g hg => hreshaped g (hf.prepend hg)) ⟨hf, hIf⟩
  | remove parent child =>
    exact Run.wp_edit (fun g hg => hreshaped g (hf.remove hg)) ⟨hf, hIf⟩
  | replace parent new old =>
    exact Run.wp_edit (fun g hg => hreshaped g (hf.replace hg)) ⟨hf, hIf⟩
  -- nodes are forgotten
  | unregister id =>
    refine Run.wp_bind (Run.wp_editWith (fun n g hg => Run.wp_pure ⟨hf.unregister hg, ?_⟩) ⟨hf, hIf⟩)
    obtain ⟨-, -, rfl⟩ := unregister_eq_ok hg
    obtain ⟨hid, hlast, -, htrans⟩ := setParents_frame (f := f.erase [id]) (f.children id) none
    exact hI.forget (he rfl) hIf hid hlast htrans
  | removeSubtree id =>
    refine Run.wp_bind (Run.wp_editWith (fun n g hg => Run.wp_pure ⟨hf.removeSubtree hg, ?_⟩)
      ⟨hf, hIf⟩)
    obtain ⟨h, -, hsame, -, -, rfl, -⟩ := hf.removeSubtree_eq_ok hg
    exact hI.forget (he rfl) (hI.sameNodes hIf hsame) rfl rfl rfl
  -- several edits, of which the last one may fail
  | setDocumentationText id text? => exact hdocumentation (Run.keeps_setDocumentationText text?)
  | attachDocumentation id doc => exact hdocumentation (Run.keeps_attachDocumentation doc)
  | setDanglingText id text? => exact hdocumentation (Run.keeps_setDanglingText text?)
  | attachDangling id doc => exact hdocumentation (Run.keeps_attachDangling doc)
  | copy root =>
    exact Run.wp_bind (Run.wp_copy hf hIf (fun _ => hI.nextId) (fun _ _ _ => hI.register) root)

/-- **An edit that succeeds leaves a consistent forest consistent.** -/
theorem consistent_of_edit (hf : f.Consistent) (e : Edit) (h : e.run f = .ok () g) :
    g.Consistent := by
  have hkept : Kept (fun _ => True) true := ⟨fun _ => trivial, fun _ _ => trivial,
    fun _ _ => trivial, fun _ _ _ _ _ _ _ => trivial⟩
  exact (Run.wp_ok (keeps_edit hkept e (fun _ => rfl) f ⟨hf, trivial⟩) h).1

/-- The identifier becomes a statement of the block. -/
theorem consistent_of_append_blockAndName :
    ∃ g, (Edit.append 1 ⟨0, 2⟩).run blockAndName = .ok () g ∧ g.Consistent :=
  ⟨_, rfl, consistent_of_edit consistent_blockAndName (.append 1 ⟨0, 2⟩) rfl⟩

/-! ### Sessions -/

/-- An edit, or the registration of a new node. -/
inductive Step where
  | register (n : Node)
  | make (src : Span) (payload : Payload)
  | edit (e : Edit)

namespace Step

/-- The run that a step names. -/
def run : Step → Run Unit
  | register n => do let _ ← Run.register n
  | make src payload => do let _ ← Run.makeAt src payload
  | edit e => e.run

/-- A new node must come without a parent mark and list no child twice. -/
def Proper : Step → Prop
  | register n => n.parent? = none ∧ n.children.Nodup
  | make _ payload => payload.children.Nodup
  | edit _ => True

/-- Whether a step forgets nodes. -/
def forgets : Step → Bool
  | edit e => e.forgets
  | _ => false

end Step

/-- The forest after steps taken one after another, whatever comes of each. -/
def session (steps : List Step) (f : Forest) : Forest :=
  steps.foldl (fun f s => s.run.after f) f

theorem keeps_step (hI : Kept I forgetful) (s : Step) (hs : s.Proper)
    (hforgets : s.forgets → forgetful) : Run.Keeps (fun g => g.Consistent ∧ I g) s.run := by
  cases s with
  | register n =>
    rintro f ⟨hf, hIf⟩
    exact Run.wp_bind (Run.wp_register (fun g hg => Run.wp_pure
      ⟨hf.register hg hs.1 hs.2, hI.register hIf hg⟩) ⟨hf, hIf⟩)
  | make src payload =>
    rintro f ⟨hf, hIf⟩
    exact Run.wp_bind (Run.wp_makeAt hf hIf (fun _ => hI.nextId) (fun _ _ _ => hI.register) src hs)
  | edit e => exact keeps_edit hI e hforgets

/-- What every step keeps, a session of proper steps keeps, and consistency with it. -/
theorem session_induction (hI : Kept I forgetful) {steps : List Step}
    (hproper : ∀ s ∈ steps, s.Proper) (hforgets : ∀ s ∈ steps, s.forgets → forgetful)
    (hf : f.Consistent) (hIf : I f) :
    (session steps f).Consistent ∧ I (session steps f) := by
  -- on the steps; what one step leaves is what the others begin with
  induction steps generalizing f with
  | nil => exact ⟨hf, hIf⟩
  | cons s rest ih =>
    obtain ⟨hs, hrest⟩ := List.forall_mem_cons.1 hproper
    obtain ⟨hsf, hrestf⟩ := List.forall_mem_cons.1 hforgets
    obtain ⟨hf', hIf'⟩ := (keeps_step hI s hs hsf).after ⟨hf, hIf⟩
    exact ih hrest hrestf hf' hIf'

end SolidityTree
