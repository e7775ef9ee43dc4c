import EventPipeline.Handler
import EventPipeline.Proofs.Event.Text
import EventPipeline.Proofs.Pipeline.Bytes

/-!
What the payload decides about an event whose transformed context is valid. Each phase comes to
bytes of a payload (`Handler.phases`), which are those of a tree (`Handler.phases_yields`); the event
is lost exactly when such a tree nests deeper than texts may (`Handler.transform_of_context`).
-/

namespace EventPipeline

open Json
open Work (Yields)

namespace Handler

/-- What the phases make of an event. -/
structure Phases where
  /-- The context after both phases. -/
  context : ByteArray
  /-- The payload after the first phase. -/
  first : ByteArray
  /-- The payload after both phases. -/
  second : ByteArray
  errors : List Error

/-- The phases, up to where the event is put together again. -/
def phases (h : Handler) (key : String) (e : Event) : Work Phases :=
  (h.context.apply key (encode e.toContext.tree) .init).bind fun context₁ =>
    (h.data.apply key (encode e.payload) .init).bind fun data₁ =>
      (h.context.apply key context₁.data .main).bind fun context₂ =>
        (h.data.apply key data₁.data .main).bind fun data₂ =>
          .done ⟨context₂.data, data₁.data, data₂.data,
            context₁.error.toList ++ data₁.error.toList ++ context₂.error.toList ++
              data₂.error.toList⟩

/-- The phases of the event that has its turn alone. -/
def phasesOf (h : Handler) (e : Event) (s : Shared) : Phases :=
  ((h.phases (storageKey e.id s.nextTicket) e).run { s with nextTicket := s.nextTicket + 1 }).1

/-- The payload is written as the one tree and then as the other. The second phase leaves alone what
it cannot read. -/
structure Phases.Holds (p : Phases) (first second : Tree) : Prop where
  first_sound : first.Sound
  second_sound : second.Sound
  first_eq : p.first = encode first
  second_eq : p.second = encode second
  deep : nestingLimit < first.depth → second = first

variable {h : Handler} {e : Event} {s : Shared}

/-- The bytes of a payload become those of other trees. -/
theorem phases_yields (key : String) (h : Handler) (he : e.payload.Sound) :
    Yields (fun p => ∃ first second, p.Holds first second) (h.phases key e) := by
  refine (h.context.apply_yields key _ _).bind fun _ _ => ?_
  refine (h.data.apply_encode_yields key .init he).bind fun data₁ ⟨first, hfirst, hdata₁, _⟩ => ?_
  refine (h.context.apply_yields key _ _).bind fun _ _ => ?_
  rw [hdata₁]
  refine (h.data.apply_encode_yields key .main hfirst).bind
    fun data₂ ⟨second, hsecond, hdata₂, hdeep⟩ => ?_
  exact .done ⟨first, second, hfirst, hsecond, rfl, hdata₂, hdeep⟩

/-- Whatever an event is like, work on it keeps sound variables only. -/
theorem transform_yields (h : Handler) (e : Event) : Yields (fun _ => True) (h.transform e) := by
  have hphases (key : String) : Yields (fun _ => True) (h.runPhases key e) :=
    (h.context.apply_yields key _ _).bind fun _ _ => (h.data.apply_yields key _ _).bind fun _ _ =>
      (h.context.apply_yields key _ _).bind fun _ _ =>
        (h.data.apply_yields key _ _).bind fun _ _ => .done trivial
  rw [transform]
  split
  · refine .ask trivial fun ticket _ => (hphases _).bind fun result _ => ?_
    exact .ask trivial fun _ _ => .done trivial
  · exact .done trivial

theorem sound_fresh : Shared.fresh.storage.Sound := .of_variablesOf fun _ => rfl

theorem storage_sound (h : Handler) (e : Event) (hs : s.storage.Sound) :
    ((h.transform e).run s).2.storage.Sound :=
  ((h.transform_yields e).run hs).2

/-- An event is put together of what its phases make of it. -/
theorem transform_eq_rebuild (h : Handler) (hjson : e.hasJsonData = true) (s : Shared) :
    ((h.transform e).run s).1 = rebuild e.data.isSome (h.phasesOf e s).context
      (h.phasesOf e s).second (h.phasesOf e s).errors := by
  rw [h.run_transform_of_json hjson]
  simp only [phasesOf, phases, runPhases, Work.run_bind, Work.run]

theorem rebuild_encode {hadData : Bool} {context : ByteArray} {errors : List Error} {c : Context}
    (hc : decodeTyped Context.ofNode context = .ok c) {t : Tree} (ht : t.Sound) :
    rebuild hadData context (encode t) errors =
      if t.depth ≤ nestingLimit then
        (Event.ofParts c (keepAbsent hadData t.reread)).map fun event =>
          ⟨event, Error.collect errors⟩
      else .error (.decode .malformed) := by
  rw [rebuild, hc, decode_encode ht]
  by_cases hd : t.depth ≤ nestingLimit
  · rw [if_pos hd, if_pos hd]
    change (Event.ofParts c (keepAbsent hadData t.reread) >>= _) = _
    cases Event.ofParts c (keepAbsent hadData t.reread) <;> rfl
  · rw [if_neg hd, if_neg hd]
    rfl

/-- What an event comes to when its payload is written as two trees. -/
theorem transform_of_holds (hjson : e.hasJsonData = true) {c : Context}
    (hc : decodeTyped Context.ofNode (h.phasesOf e s).context = .ok c) {first second : Tree}
    (hp : (h.phasesOf e s).Holds first second) :
    ((h.transform e).run s).1 =
      if second.depth ≤ nestingLimit then
        (Event.ofParts c (keepAbsent e.data.isSome second.reread)).map fun event =>
          ⟨event, Error.collect (h.phasesOf e s).errors⟩
      else .error (.decode .malformed) := by
  rw [h.transform_eq_rebuild hjson, hp.second_eq, rebuild_encode hc hp.second_sound]

/-- The phases of a handler that has no rules but for the second phase of payloads. -/
theorem holds_of_main (hcontext : h.context.isEmpty = true)
    (hinit : (h.data.phaseRules .init).isEmpty = true) (he : e.payload.Sound)
    (hd : e.payload.depth ≤ nestingLimit) (hshort : e.payload.isShort = true)
    (hs : s.storage.Sound) :
    let s' : Shared := { s with nextTicket := s.nextTicket + 1 }
    let second := ((h.data.applyTree (storageKey e.id s.nextTicket) e.payload .main).run s').1
    (h.phasesOf e s).context = encode e.toContext.tree ∧
      (h.phasesOf e s).Holds e.payload second.1 := by
  intro s' second
  have hsecond : second.1.Sound := ((h.data.applyTree_yields _ .main he).run (s := s') hs).1
  have hskip (key : String) (data : ByteArray) : h.data.apply key data .init = .done ⟨data, none⟩ :=
    if_pos hinit
  have hphases : h.phasesOf e s = ⟨encode e.toContext.tree, encode e.payload, encode second.1,
      (Error.collect second.2).toList⟩ := by
    simp only [phasesOf, phases, Work.run_bind, Work.run, Pipeline.apply_of_isEmpty hcontext, hskip,
      Pipeline.apply_encode _ h.data .main he hd hshort]
    rfl
  rw [hphases]
  exact ⟨rfl, he, hsecond, rfl, rfl, fun hdeep => absurd hdeep (Nat.not_lt.mpr hd)⟩

/--
The payload of an event is written as sound trees. An event whose context is valid after both phases
is handed on, with every error on the way, when neither tree is deeper than texts may be; otherwise
it is rejected. Either way the variables that are kept are sound again.
-/
theorem transform_of_context (h : Handler) {text : String} {c : Context}
    (hread : Event.read text = .ok e) (hjson : e.hasJsonData = true) (hs : s.storage.Sound)
    (hc : decodeTyped Context.ofNode (h.phasesOf e s).context = .ok c)
    (hvalid : c.validate = .ok ()) :
    let p := h.phasesOf e s
    (∃ first second, p.Holds first second) ∧
    (∀ first second, p.Holds first second →
      (first.depth ≤ nestingLimit ∧ second.depth ≤ nestingLimit → ∃ event,
        Event.ofParts c (keepAbsent e.data.isSome second.reread) = .ok event ∧
        ((h.transform e).run s).1 = .ok ⟨event, Error.collect p.errors⟩) ∧
      (nestingLimit < first.depth ∨ nestingLimit < second.depth →
        ((h.transform e).run s).1 = .error (.decode .malformed))) ∧
    ((h.transform e).run s).2.storage.Sound := by
  intro p
  have hpayload := (Event.payload_of_read hread).1
  have hholds := (h.phases_yields (storageKey e.id s.nextTicket) hpayload).run
    (s := { s with nextTicket := s.nextTicket + 1 }) hs
  refine ⟨hholds.1, fun first second hp => ?_, h.storage_sound e hs⟩
  have hout := transform_of_holds hjson hc hp
  constructor
  · rintro ⟨-, hd⟩
    obtain ⟨event, hevent⟩ : ∃ event,
        Event.ofParts c (keepAbsent e.data.isSome second.reread) = .ok event := by
      rw [Event.ofParts, hvalid]
      exact ⟨_, rfl⟩
    rw [if_pos hd, hevent] at hout
    exact ⟨event, hevent, hout⟩
  · intro hdeep
    have hsecond : nestingLimit < second.depth :=
      hdeep.elim (fun hfirst => hp.deep hfirst ▸ hfirst) id
    rwa [if_neg (Nat.not_le.mpr hsecond)] at hout

/-- A member that holds no JSON cannot be parsed; its event is handed on with that error. -/
theorem transform_of_context_flawed :
    let h : Handler := ⟨⟨[]⟩, ⟨[.parse ⟨⟨[.key "a"]⟩, .json⟩]⟩⟩
    let data := Tree.object [("a", .text "[")]
    let e : Event := { Event.ofAttributes "1" "s" "t" with data := some data }
    (Event.read e.text = .ok e ∧ e.hasJsonData = true ∧ Shared.fresh.storage.Sound ∧
      decodeTyped Context.ofNode (h.phasesOf e .fresh).context = .ok e.toContext ∧
      e.toContext.validate = .ok () ∧ (h.phasesOf e .fresh).Holds data data) ∧
    ∃ out, ((h.transform e).run .fresh).1 = .ok out ∧ out.isPartial = true := by
  intro h data e
  have hread : Event.read e.text = .ok e := by decide +kernel
  have hjson : e.hasJsonData = true := by decide +kernel
  have hcontext : decodeTyped Context.ofNode (h.phasesOf e .fresh).context = .ok e.toContext := by
    decide +kernel
  have hsound : data.Sound := .object (List.pairwise_singleton _ _) fun _ hm =>
    List.mem_singleton.mp hm ▸ .text _
  have hholds : (h.phasesOf e .fresh).Holds data data :=
    ⟨hsound, hsound, by decide +kernel, by decide +kernel, fun _ => rfl⟩
  have herror : (Error.collect (h.phasesOf e .fresh).errors).isSome = true := by decide +kernel
  obtain ⟨-, hphases, -⟩ := h.transform_of_context hread hjson sound_fresh hcontext rfl
  obtain ⟨event, -, hout⟩ := (hphases data data hholds).1 (by decide +kernel)
  exact ⟨⟨hread, hjson, sound_fresh, hcontext, rfl, hholds⟩, _, hout, herror⟩

end Handler

/-- An empty list inside `n` other lists. -/
def Tree.brackets : Nat → Tree
  | 0 => .array []
  | n + 1 => .array [brackets n]

theorem Tree.sound_brackets (n : Nat) : (brackets n).Sound := by
  induction n with
  | zero => exact .array fun _ ht => absurd ht List.not_mem_nil
  | succ n ih => exact .array fun t ht => List.mem_singleton.mp ht ▸ ih

theorem Tree.reread_brackets (n : Nat) : (brackets n).reread = brackets n := by
  induction n with
  | zero => rfl
  | succ n ih => exact congrArg (fun t => Tree.array [t]) ih

/-- The object of one member. -/
def Tree.single (name : String) (t : Tree) : Tree := .object [(name, t)]

theorem Tree.Sound.single {t : Tree} (ht : t.Sound) (name : String) : (Tree.single name t).Sound :=
  .object (List.pairwise_singleton _ _) fun _ hm => List.mem_singleton.mp hm ▸ ht

/-- An event with nested lists in its payload. -/
def Event.listing (n : Nat) : Event :=
  { Event.ofAttributes "1" "s" "t" with data := some (.single "list" (.brackets n)) }

theorem Event.regular_listing (n : Nat) : (listing n).Regular where
  time _ ht := nomatch ht
  sorted := .nil
  names _ hx := nomatch hx
  values _ hx := nomatch hx
  data _ ht := Option.some.inj ht ▸ (Tree.sound_brackets n).single "list"

theorem Event.reread_listing (n : Nat) : (listing n).reread = listing n :=
  congrArg (fun t => { Event.ofAttributes "1" "s" "t" with data := some (.single "list" t) })
    (Tree.reread_brackets n)

theorem Event.read_listing {n : Nat} (hn : (listing n).payload.depth < Json.nestingLimit) :
    Event.read (listing n).text = .ok (listing n) := by
  rw [Event.read_text (Event.regular_listing n), if_pos (Nat.le_sub_one_of_lt hn),
    Event.reread_listing]
  rfl

namespace Handler

/-- A payload that is as deep as an event may have it is moved two levels down. The context is as
it was, yet the event is rejected. -/
theorem transform_of_context_rejected :
    let h : Handler :=
      ⟨⟨[]⟩, ⟨[.shift ⟨⟨[.key "list"]⟩, ⟨[.key "a", .key "b", .key "c"]⟩, ""⟩]⟩⟩
    let e := Event.listing 124
    (Handler.ofTransforms [] [⟨.shift, [{ key := "list:a.b.c" }]⟩]).toOption = some h ∧
    (Event.read e.text = .ok e ∧ e.hasJsonData = true ∧
      decodeTyped Context.ofNode (h.phasesOf e .fresh).context = .ok e.toContext ∧
      e.toContext.validate = .ok ()) ∧
    ((h.transform e).run .fresh).1 = .error (.decode .malformed) := by
  intro h e
  have hread : Event.read e.text = .ok e := Event.read_listing (by decide +kernel)
  have hjson : e.hasJsonData = true := by decide +kernel
  have hdata : e.payload.Sound := (Tree.sound_brackets 124).single "list"
  obtain ⟨hcontext, hholds⟩ := holds_of_main (h := h) rfl rfl hdata (by decide +kernel)
    (by decide +kernel) sound_fresh
  have hc : decodeTyped Context.ofNode (h.phasesOf e .fresh).context = .ok e.toContext := by
    rw [hcontext]
    decide +kernel
  refine ⟨by decide +kernel, ⟨hread, hjson, hc, rfl⟩, ?_⟩
  rw [transform_of_holds hjson hc hholds]
  exact if_neg (by decide +kernel)

end Handler

end EventPipeline
