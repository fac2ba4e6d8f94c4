/-
# LexLang.Trace.Forest — forests that grow at a path

A forest, and a path of open nodes into it: the innermost one takes what is added. A node is opened under
the innermost open node, and closed with a last change to its data.

`listing` lists a forest in preorder, each node with its depth. On listings the two operations are simple: opening a node appends an entry
(`entries_enter`), closing the innermost one changes the entry at which it was opened (`entries_exit`).
-/
import Mathlib.Data.List.Basic

namespace LexLang.Trace

open List

variable {α : Type}

/-! ## Listings -/

/-- The entry right behind a list. -/
theorem modify_append_cons {β : Type} (before after : List β) (entry : β) (f : β → β) :
    (before ++ entry :: after).modify before.length f = before ++ f entry :: after := by
  induction before with
  | nil => rfl
  | cons first before ih =>
    show first :: (before ++ entry :: after).modify before.length f = _
    rw [ih]
    rfl

/-- A node with its children. -/
inductive Tree (α : Type)
  | node (data : α) (children : List (Tree α))

/-- The nodes of a forest in preorder, each with its depth. -/
def listing (depth : Nat) : List (Tree α) → List (Nat × α)
  | [] => []
  | .node data children :: trees => (depth, data) :: (listing (depth + 1) children ++ listing depth trees)

@[simp] theorem listing_nil (depth : Nat) : listing depth ([] : List (Tree α)) = [] := by
  rw [listing]

@[simp] theorem listing_cons (depth : Nat) (data : α) (children trees : List (Tree α)) :
    listing depth (.node data children :: trees) =
      (depth, data) :: (listing (depth + 1) children ++ listing depth trees) := by
  rw [listing]

theorem listing_append (depth : Nat) (first second : List (Tree α)) :
    listing depth (first ++ second) = listing depth first ++ listing depth second := by
  induction first with
  | nil => simp
  | cons tree trees ih =>
    obtain ⟨data, children⟩ := tree
    simp [ih]

/-- The data of every node. -/
def dataOf (trees : List (Tree α)) : List α := (listing 0 trees).map Prod.snd

theorem map_snd_listing : ∀ (trees : List (Tree α)) (depth depth' : Nat),
    (listing depth trees).map Prod.snd = (listing depth' trees).map Prod.snd
  | [], _, _ => by rw [listing_nil, listing_nil]
  | .node data children :: trees, depth, depth' => by
    rw [listing_cons, listing_cons, map_cons, map_cons, map_append, map_append,
      map_snd_listing children _ (depth' + 1), map_snd_listing trees _ depth']

theorem dataOf_append (first second : List (Tree α)) : dataOf (first ++ second) = dataOf first ++ dataOf second := by
  unfold dataOf
  rw [listing_append, map_append]

theorem dataOf_node (data : α) (children : List (Tree α)) : dataOf [.node data children] = data :: dataOf children := by
  unfold dataOf
  rw [listing_cons, listing_nil, append_nil, map_cons, map_snd_listing children 1 0]

/-! ## Open forests -/

/-- **A forest that is being built**: the trees that are complete, and the path of open nodes, the
innermost first, each with its complete children. -/
structure OpenForest (α : Type) where
  path : List (α × List (Tree α))
  completed : List (Tree α)

namespace OpenForest

def empty : OpenForest α := ⟨[], []⟩

/-- Add a complete node under the innermost open one. -/
def attach (forest : OpenForest α) (tree : Tree α) : OpenForest α :=
  match forest.path with
  | (data, children) :: outer => { forest with path := (data, children ++ [tree]) :: outer }
  | [] => { forest with completed := forest.completed ++ [tree] }

/-- Open a node under the innermost open one. -/
def enter (forest : OpenForest α) (data : α) : OpenForest α :=
  { forest with path := (data, []) :: forest.path }

/-- Close the innermost open node, if there is one. -/
def exit (forest : OpenForest α) (last : α → α) : OpenForest α :=
  match forest.path with
  | (data, children) :: outer => { forest with path := outer }.attach (.node (last data) children)
  | [] => forest

/-! ### As listings -/

/-- The entries of a path. -/
def spine : List (α × List (Tree α)) → List (Nat × α)
  | [] => []
  | (data, children) :: outer =>
    spine outer ++ (outer.length, data) :: listing (outer.length + 1) children

/-- **Every node there is**, complete or open, in the order they were opened. -/
def entries (forest : OpenForest α) : List (Nat × α) :=
  listing 0 forest.completed ++ spine forest.path

/-- Where the nodes of a path are listed. -/
def positionsFrom (before : Nat) : List (α × List (Tree α)) → List Nat
  | [] => []
  | (_, _) :: outer => (before + (spine outer).length) :: positionsFrom before outer

/-- Where the open nodes are listed, the innermost first. -/
def positions (forest : OpenForest α) : List Nat :=
  positionsFrom (listing 0 forest.completed).length forest.path

@[simp] theorem length_positionsFrom (before : Nat) (path : List (α × List (Tree α))) :
    (positionsFrom before path).length = path.length := by
  induction path with
  | nil => rfl
  | cons _ outer ih => simp [positionsFrom, ih]

@[simp] theorem length_positions (forest : OpenForest α) :
    forest.positions.length = forest.path.length := length_positionsFrom _ _

theorem entries_empty : (empty : OpenForest α).entries = [] := by
  unfold entries empty
  simp [spine]

variable (forest : OpenForest α)

/-- Opening a node lists it last, under all that are open. -/
theorem entries_enter (data : α) : (forest.enter data).entries = forest.entries ++ [(forest.path.length, data)] := by
  unfold entries enter
  simp [spine]

theorem positions_enter (data : α) : (forest.enter data).positions = forest.entries.length :: forest.positions := by
  unfold positions enter entries
  simp [positionsFrom]

/-- A complete node is listed last, with what is below it. -/
theorem entries_attach (data : α) (children : List (Tree α)) : (forest.attach (.node data children)).entries =
      forest.entries ++ (forest.path.length, data) :: listing (forest.path.length + 1) children := by
  unfold entries attach
  cases hpath : forest.path with
  | nil => simp [spine, listing_append]
  | cons top outer =>
    obtain ⟨top, siblings⟩ := top
    simp [spine, listing_append]

theorem positions_attach (tree : Tree α) (hpath : forest.path ≠ []) :
    (forest.attach tree).positions = forest.positions := by
  unfold positions attach
  cases hcases : forest.path with
  | nil => exact absurd hcases hpath
  | cons top outer => rfl

/-- Nothing is open, and nothing is listed as open. -/
theorem positions_eq_nil (h : forest.path = []) : forest.positions = [] := by
  unfold positions
  rw [h]
  rfl

/-- **Closing the innermost node** changes its entry, which is found where it was opened. -/
theorem entries_exit {top : Nat} {outer : List Nat} (h : forest.positions = top :: outer) (last : α → α) :
    (forest.exit last).entries = forest.entries.modify top (fun entry => (entry.1, last entry.2)) := by
  unfold positions at h
  unfold exit
  cases hpath : forest.path with
  | nil =>
    rw [hpath] at h
    cases h
  | cons node path =>
    obtain ⟨data, children⟩ := node
    rw [hpath, positionsFrom] at h
    obtain ⟨rfl, -⟩ := List.cons.inj h
    simp only
    rw [entries_attach]
    unfold entries
    rw [hpath, spine, ← append_assoc, ← length_append, modify_append_cons]

theorem positions_exit {top : Nat} {outer : List Nat} (h : forest.positions = top :: outer)
    (last : α → α) : (forest.exit last).positions = outer := by
  unfold positions at h
  unfold exit
  cases hpath : forest.path with
  | nil =>
    rw [hpath] at h
    cases h
  | cons node path =>
    obtain ⟨data, children⟩ := node
    rw [hpath, positionsFrom] at h
    obtain ⟨-, rfl⟩ := List.cons.inj h
    simp only
    by_cases hne : path = []
    · subst hne
      exact positions_eq_nil _ rfl
    · exact positions_attach _ _ hne

/-! ### What is complete -/

/-- The data of every node that is closed. -/
def closed : List α := dataOf forest.completed ++ forest.path.flatMap fun node => dataOf node.2

theorem closed_enter (data : α) : (forest.enter data).closed = forest.closed := by
  unfold closed enter
  simp [dataOf]

theorem mem_closed_attach (tree : Tree α) (data : α) :
    data ∈ (forest.attach tree).closed ↔ data ∈ forest.closed ∨ data ∈ dataOf [tree] := by
  unfold closed attach
  cases forest.path with
  | nil => simp [dataOf_append]
  | cons top outer =>
    simp only [flatMap_cons, mem_append, dataOf_append]
    tauto

/-- What is closed stays so. -/
theorem closed_subset_exit (last : α → α) : forest.closed ⊆ (forest.exit last).closed := by
  intro data h
  unfold exit
  cases hpath : forest.path with
  | nil => exact h
  | cons top outer =>
    obtain ⟨inner, children⟩ := top
    simp only
    rw [mem_closed_attach, dataOf_node]
    unfold closed at h ⊢
    rw [hpath, flatMap_cons] at h
    simp only [mem_append, mem_cons] at h ⊢
    tauto

theorem mem_closed_exit {data : α} {children : List (Tree α)} {outer : List (α × List (Tree α))}
    (h : forest.path = (data, children) :: outer) (last : α → α) : last data ∈ (forest.exit last).closed := by
  unfold exit
  rw [h]
  simp only
  rw [mem_closed_attach, dataOf_node]
  exact .inr (mem_cons_self ..)

theorem closed_of_path_nil (h : forest.path = []) : forest.closed = dataOf forest.completed := by
  unfold closed
  rw [h]
  exact append_nil _

theorem length_path_exit (last : α → α) : (forest.exit last).path.length = forest.path.length - 1 := by
  unfold exit
  cases hpath : forest.path with
  | nil =>
    simp only
    rw [hpath]
    rfl
  | cons top outer =>
    obtain ⟨data, children⟩ := top
    unfold attach
    cases outer with
    | nil => rfl
    | cons next outer => rfl

/-- When nothing is open, the forest is its complete trees. -/
theorem entries_of_closed (h : forest.positions = []) : forest.entries = listing 0 forest.completed := by
  have hpath : forest.path = [] := by
    rw [← length_eq_zero_iff, ← length_positions, h]
    rfl
  unfold entries
  rw [hpath]
  exact append_nil _

end OpenForest

end LexLang.Trace
