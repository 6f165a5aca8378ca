import PinnedTree.Destination

namespace PinnedTree.Groups

/-- For each index the index that stands for its class, and the height that the class has reached
by merging. -/
structure Classes where
  label : List Nat
  rank : List Nat
deriving DecidableEq, Repr

namespace Classes

def discrete (n : Nat) : Classes := ⟨List.range n, List.replicate n 0⟩

def find (c : Classes) (i : Nat) : Nat := c.label.getD i i

def height (c : Classes) (i : Nat) : Nat := c.rank.getD i 0

def attach (c : Classes) (lower upper : Nat) : Classes :=
  { c with label := c.label.map fun l => if l = lower then upper else l }

/-- The classes with those of two indices merged: the lower class goes under the higher one, and of
two equal ones the second under the first. -/
def merge (c : Classes) (i j : Nat) : Classes :=
  let a := c.find i
  let b := c.find j
  if a = b then c
  else if c.height a < c.height b then c.attach a b
  else if c.height b < c.height a then c.attach b a
  else { c.attach b a with rank := c.rank.set a (c.height a + 1) }

end Classes

def encloses (all : List Destination) (i j : Nat) : Bool :=
  match all[i]?, all[j]? with
  | some outer, some inner => i ≠ j && inner.within outer
  | _, _ => false

def enclosed (all : List Destination) (i : Nat) : List Nat :=
  (List.range all.length).filter (encloses all i)

def classes (all : List Destination) : Classes :=
  (List.range all.length).foldl (fun c i => (enclosed all i).foldl (fun c j => c.merge i j) c)
    (Classes.discrete all.length)

/-- Puts an index in front of the ones that are done, after all that lie inside it; so many levels
may be gone down. -/
def finish (all : List Destination) : Nat → List Nat → Nat → List Nat
  | 0, done, i => if i ∈ done then done else i :: done
  | levels + 1, done, i =>
    if i ∈ done then done
    else i :: (enclosed all i).foldl (finish all levels) done

def outerFirst (all : List Destination) : List Nat :=
  (List.range all.length).foldl (finish all all.length) []

/-- The order in which the search puts all indices. There is none where an index would come before
one that its destination lies inside, as it does where destinations lie inside each other. -/
def topological? (all : List Destination) : Option (List Nat) :=
  let order := outerFirst all
  if order.Pairwise fun i j => encloses all j i = false then some order else none

def depth (all : List Destination) (i : Nat) : Nat := (all[i]?.map (·.names.length)).getD 0

def byDepth (all : List Destination) : List Nat :=
  (List.range all.length).mergeSort fun i j => depth all i ≤ depth all j

/-- The groups in the order of the indices that stand for them, each with outer ones first. -/
def ofDestinations (all : List Destination) : List (List Nat) :=
  let c := classes all
  let order := (topological? all).getD (byDepth all)
  ((List.range all.length).map fun l => order.filter fun i => c.find i = l).filter (· ≠ [])

end PinnedTree.Groups
