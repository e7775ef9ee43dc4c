import EventPipeline.Path.Basic
import EventPipeline.Tree.Basic

/-!
Reading, replacing and removing the node at a path. A path *resolves* in a tree when every step
finds the container and the child it asks for; a path that does not resolve is no error.
-/

namespace EventPipeline

/-- Puts a value under a key that is there. -/
def Keyed.replace {α : Type} (key : String) (value : α) : Keyed α → Keyed α
  | [] => []
  | (k, a) :: m => if k = key then (k, value) :: m else (k, a) :: replace key value m

namespace Tree

open EventPipeline.Path (Step)

/-- The child that a step leads to. -/
def child? (t : Tree) : Step → Option Tree
  | .key name =>
    match t with
    | .object members => Keyed.get? name members
    | _ => none
  | .index i =>
    match t with
    | .array items => items[i]?
    | _ => none

/-- The tree with another child at a step that leads to one. -/
def withChild (t : Tree) (new : Tree) : Step → Tree
  | .key name =>
    match t with
    | .object members => .object (Keyed.replace name new members)
    | t => t
  | .index i =>
    match t with
    | .array items => .array (items.set i new)
    | t => t

/-- The tree without the child that a step leads to; the elements behind it move up. -/
def withoutChild (t : Tree) : Step → Tree
  | .key name =>
    match t with
    | .object members => .object (Keyed.erase name members)
    | t => t
  | .index i =>
    match t with
    | .array items => .array (items.eraseIdx i)
    | t => t

/-- The node at a path. -/
def read? (t : Tree) : List Step → Option Tree
  | [] => some t
  | step :: rest => (t.child? step).bind fun child => child.read? rest

/-- A place in a tree: the node there, and the tree for every node put in its stead. -/
structure Slot where
  node : Tree
  fill : Tree → Tree

/-- The place at a path. -/
def slot? (t : Tree) : List Step → Option Slot
  | [] => some ⟨t, id⟩
  | step :: rest =>
    (t.child? step).bind fun child =>
      (child.slot? rest).map fun slot =>
        ⟨slot.node, fun new => t.withChild (slot.fill new) step⟩

/--
Removes the node at a path; returns what remains, and the node. Without the root, null remains.
A path that does not resolve leaves the tree as it is.
-/
def extract (t : Tree) : List Step → Tree × Option Tree
  | [] => (.null, some t)
  | step :: rest =>
    match t.child? step with
    | none => (t, none)
    | some child =>
      if rest.isEmpty then (t.withoutChild step, some child)
      else
        match child.extract rest with
        | (_, none) => (t, none)
        | (remaining, some removed) => (t.withChild remaining step, some removed)

@[simp] theorem read?_nil (t : Tree) : t.read? [] = some t := rfl

/-- The place at a path is there exactly when the path resolves, and holds its node. -/
theorem slot?_map_node (t : Tree) (steps : List Step) :
    (t.slot? steps).map Slot.node = t.read? steps := by
  induction steps generalizing t with
  | nil => rfl
  | cons step rest ih =>
    simp only [slot?, read?]
    cases h : t.child? step with
    | none => rfl
    | some child =>
      simp only [Option.bind_some, ← ih child]
      cases child.slot? rest <;> rfl

/-- What is removed is what a reader finds. -/
theorem snd_extract (t : Tree) (steps : List Step) : (t.extract steps).2 = t.read? steps := by
  induction steps generalizing t with
  | nil => rfl
  | cons step rest ih =>
    simp only [extract, read?]
    cases h : t.child? step with
    | none => rfl
    | some child =>
      simp only [Option.bind_some, ← ih child]
      cases rest with
      | nil => rfl
      | cons s rest =>
        simp only [List.isEmpty_cons, Bool.false_eq_true, if_false]
        rcases child.extract (s :: rest) with ⟨remaining, _ | removed⟩ <;> rfl

theorem WellFormed.child? {t child : Tree} {step : Step} (h : t.WellFormed)
    (hc : t.child? step = some child) : child.WellFormed := by
  cases step with
  | key name =>
    cases t with
    | object members => exact membersWellFormed_iff.mp h.2 _ (Keyed.mem_of_get? hc)
    | _ => cases hc
  | index i =>
    cases t with
    | array items => exact itemsWellFormed_iff.mp h _ (List.mem_of_getElem? hc)
    | _ => cases hc

/-- Every node of a well-formed tree is well formed. -/
theorem WellFormed.read? {t node : Tree} {steps : List Step} (h : t.WellFormed)
    (hr : t.read? steps = some node) : node.WellFormed := by
  induction steps generalizing t with
  | nil => exact Option.some.inj hr ▸ h
  | cons step steps ih =>
    obtain ⟨child, hc, hr⟩ := Option.bind_eq_some_iff.mp hr
    exact ih (h.child? hc) hr

end Tree

end EventPipeline
