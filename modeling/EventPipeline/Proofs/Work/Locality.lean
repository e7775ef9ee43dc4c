import EventPipeline.Handler
import EventPipeline.Proofs.Work.Confined

/-!
Pipelines and handlers ask for nothing but the variables of their event, and do not look at its
name: for each function that works on variables, its works under two names are alike.
-/

namespace EventPipeline

open Work (Alike)

variable (a b : String)

theorem resolve_alike (name : String) : Alike a b (resolve a name) (resolve b name) := by
  unfold resolve
  split
  · exact .done _
  · exact .get _ fun _ => .done _

namespace Add

theorem resolveAll_alike (names : List String) :
    Alike a b (resolveAll a names) (resolveAll b names) := by
  induction names with
  | nil => exact .done _
  | cons name names ih => exact (resolve_alike a b name).bind fun _ => ih.bind fun _ => .done _

theorem compose_alike (add : Add) : Alike a b (add.compose a) (add.compose b) :=
  .keys fun _ => (resolveAll_alike a b _).bind fun _ => .done _

end Add

theorem Delete.filterFor_alike (d : Delete) : Alike a b (d.filterFor a) (d.filterFor b) := by
  unfold Delete.filterFor
  split
  · exact .done _
  · refine .get _ fun value => ?_
    split <;> exact .done _

namespace Shift

theorem allows_alike (s : Shift) (node : Tree) : Alike a b (s.allows a node) (s.allows b node) := by
  unfold allows
  split
  · exact .done _
  · refine (resolve_alike a b _).bind fun value => ?_
    split <;> exact .done _

theorem transform_alike (s : Shift) (t : Tree) : Alike a b (s.transform a t) (s.transform b t) := by
  unfold transform
  split
  · exact .done _
  · exact (s.allows_alike a b _).bind fun _ => .done _

end Shift

theorem Rule.transform_alike (r : Rule) (t : Tree) :
    Alike a b (r.transform a t) (r.transform b t) := by
  cases r with
  | add r => exact ((r.compose_alike a b).bind fun _ => .done _).bind fun _ => .done _
  | delete r => exact ((r.filterFor_alike a b).bind fun _ => .done _).bind fun _ => .done _
  | shift r => exact (r.transform_alike a b t).bind fun _ => .done _
  | store r => exact .set _ _ (.done _)
  | parse r => exact .done _

namespace Pipeline

theorem applyRules_alike (rules : List Rule) (t : Tree) :
    Alike a b (applyRules a t rules) (applyRules b t rules) := by
  induction rules generalizing t with
  | nil => exact .done _
  | cons r rs ih =>
    refine (r.transform_alike a b t).bind fun result => ?_
    cases result with
    | ok next => exact ih next
    | error e => exact (ih t).bind fun _ => .done _

theorem applyTree_alike (p : Pipeline) (t : Tree) (phase : Phase) :
    Alike a b (p.applyTree a t phase) (p.applyTree b t phase) :=
  applyRules_alike a b _ t

theorem apply_alike (p : Pipeline) (data : ByteArray) (phase : Phase) :
    Alike a b (p.apply a data phase) (p.apply b data phase) := by
  unfold apply
  split
  · exact .done _
  · split
    · exact .done _
    · exact (p.applyTree_alike a b _ phase).bind fun _ => .done _

end Pipeline

namespace Handler

theorem runPhases_alike (h : Handler) (e : Event) :
    Alike a b (h.runPhases a e) (h.runPhases b e) :=
  (h.context.apply_alike a b _ _).bind fun _ =>
    (h.data.apply_alike a b _ _).bind fun _ =>
      (h.context.apply_alike a b _ _).bind fun _ =>
        (h.data.apply_alike a b _ _).bind fun _ => .done _

/-- The work that an event is given under its name in the storage. -/
def session (h : Handler) (key : String) (e : Event) : Work (Except Error Transformed) :=
  (h.runPhases key e).inScope key

theorem session_alike (h : Handler) (e : Event) :
    Alike a b (h.session a e) (h.session b e) :=
  (h.runPhases_alike a b e).bind fun _ => .flush (.done _)

/-- Whatever happens in a session, no variable is left. -/
theorem left_session (h : Handler) (key : String) (e : Event) (vars : Keyed Tree) :
    ((h.session key e).ending vars).left = [] := by
  simp only [session, Work.inScope, Work.ending_bind, Work.ending, Request.serve]

theorem transform_eq (h : Handler) (e : Event) :
    h.transform e =
      if e.hasJsonData then .ask .ticket fun ticket => h.session (storageKey e.id ticket) e
      else .done (.error (.unsupportedContentType (e.datacontenttype.getD ""))) := rfl

/-- What the transformation of an event comes to when nothing else goes on. -/
def ending (h : Handler) (e : Event) : Work.Ending (Except Error Transformed) :=
  (h.transform e).ending []

theorem left_ending (h : Handler) (e : Event) : (h.ending e).left = [] := by
  rw [ending, transform_eq]
  split
  · exact h.left_session _ e []
  · rfl

/-- The first turn of an event draws its ticket; any other ticket would do as well. -/
theorem ending_session (h : Handler) {e : Event} (he : e.hasJsonData = true) (key : String) :
    h.ending e = { (h.session key e).ending [] with
      turns := ((h.session key e).ending []).turns + 1 } := by
  have hk := (h.session_alike (storageKey e.id 0) key e).ending_eq []
  rw [ending, transform_eq, if_pos he, ← hk]
  rfl

end Handler

end EventPipeline
