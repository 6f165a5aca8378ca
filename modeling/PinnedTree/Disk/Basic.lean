import PinnedTree.Bytes

/-!
A disk: what stands at each path of a file system. Every operation is described by what can be
looked up after it.
-/

namespace PinnedTree

abbrev DiskPath := List String

inductive Node
  | dir
  | file (content : ByteArray) (mode : Nat)
  | link (target : String)
deriving DecidableEq

def mayRead (mode : Nat) : Bool := mode &&& 0o400 ≠ 0

def mayWrite (mode : Nat) : Bool := mode &&& 0o200 ≠ 0

/-- The objects of a file system below its top, each with its path, and the directory in which
relative paths start. -/
structure Disk where
  home : DiskPath
  nodes : List (DiskPath × Node)
  distinct : (nodes.map (·.1)).Nodup

namespace Disk

def look (d : Disk) (p : DiskPath) : Option Node :=
  if p = [] then some .dir else (d.nodes.find? (·.1 = p)).map (·.2)

def inside (d : Disk) (p : DiskPath) : List (DiskPath × Node) :=
  d.nodes.filter fun entry => p.isPrefixOf entry.1 && p.length < entry.1.length

def namesIn (d : Disk) (p : DiskPath) : List String :=
  (d.nodes.filter fun entry => p.isPrefixOf entry.1 && entry.1.length = p.length + 1).filterMap
    (·.1.getLast?)

def put (d : Disk) (p : DiskPath) (node : Node) : Disk :=
  if held : p ∈ d.nodes.map (·.1) then
    { home := d.home
      nodes := d.nodes.map fun entry => if entry.1 = p then (p, node) else entry
      distinct := by
        have same : (d.nodes.map fun entry => if entry.1 = p then (p, node) else entry).map (·.1)
            = d.nodes.map (·.1) := by
          rw [List.map_map]
          apply List.map_congr_left
          intro entry _
          by_cases here : entry.1 = p <;> simp [here]
        rw [same]
        exact d.distinct }
  else
    { home := d.home
      nodes := d.nodes ++ [(p, node)]
      distinct := by
        rw [List.map_append, List.nodup_append]
        exact ⟨d.distinct, by simp, by
          intro q member r last
          simp only [List.map_cons, List.map_nil, List.mem_singleton] at last
          exact fun same => held (last ▸ same ▸ member)⟩ }

def erase (d : Disk) (p : DiskPath) : Disk where
  home := d.home
  nodes := d.nodes.filter (·.1 ≠ p)
  distinct := (List.filter_sublist.map _).nodup d.distinct

/-- Where an object stands after everything at and below one path was moved to another. -/
def moved (src dst p : DiskPath) : DiskPath :=
  if src.isPrefixOf p then dst ++ p.drop src.length else p

theorem moved_injective {src dst p q : DiskPath} (hp : ¬ dst <+: p) (hq : ¬ dst <+: q)
    (same : moved src dst p = moved src dst q) : p = q := by
  unfold moved at same
  split at same <;> split at same
  · rename_i left right
    obtain ⟨restP, rfl⟩ := List.isPrefixOf_iff_prefix.mp left
    obtain ⟨restQ, rfl⟩ := List.isPrefixOf_iff_prefix.mp right
    simpa using same
  · exact absurd ⟨_, same⟩ hq
  · exact absurd ⟨_, same.symm⟩ hp
  · exact same

/-- The disk after a rename: what stood at and below the old path stands at and below the new one,
in place of anything that stood there. -/
def move (d : Disk) (src dst : DiskPath) : Disk where
  home := d.home
  nodes := (d.nodes.filter fun entry => !dst.isPrefixOf entry.1).map fun entry =>
    (moved src dst entry.1, entry.2)
  distinct := by
    have kept := (List.filter_sublist (p := fun entry : DiskPath × Node =>
      !dst.isPrefixOf entry.1) (l := d.nodes)).map (·.1) |>.nodup d.distinct
    rw [List.map_map]
    unfold List.Nodup at kept ⊢
    rw [List.pairwise_map] at kept ⊢
    apply kept.imp_of_mem
    intro a b ma mb apart same
    simp only [List.mem_filter, Bool.not_eq_true', ← Bool.not_eq_true,
      List.isPrefixOf_iff_prefix] at ma mb
    exact apart (moved_injective ma.2 mb.2 same)

/-- A disk with nothing on it but the directories down to its home. -/
def empty (home : DiskPath) : Disk where
  home := home
  nodes := (List.range home.length).map fun n => (home.take (n + 1), .dir)
  distinct := by
    rw [List.map_map]
    unfold List.Nodup
    rw [List.pairwise_map]
    apply List.pairwise_lt_range.imp_of_mem
    intro a b ma mb less same
    have ha := List.mem_range.mp ma
    have hb := List.mem_range.mp mb
    have lengths := congrArg List.length same
    simp only [Function.comp_apply, List.length_take] at lengths
    omega

end Disk

end PinnedTree
