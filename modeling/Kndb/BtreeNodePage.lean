import Kndb.Types

namespace Kndb

structure Cell (T : Type) where
  key : Vari
  value : T
deriving DecidableEq, Repr

structure BtreeNodePage (T : Type) where
  pageID : ℕ
  degree : ℕ
  parentID : ℕ
  leaf : Bool
  root : Bool
  children : List ℕ
  cells : List (Cell T)
deriving DecidableEq, Repr

namespace BtreeNodePage

variable {T : Type}

def new (deg parentID : ℕ) (is_root is_leaf : Bool) (pageID : ℕ) : BtreeNodePage T :=
  { pageID, degree := deg, parentID, leaf := is_leaf, root := is_root, children := [], cells := [] }

/-- `m_degree - 1`, returned as a `degree_t`. -/
def minKeys (n : BtreeNodePage T) : ℕ := (n.degree + 2 ^ 16 - 1) % 2 ^ 16

/-- `2 * m_degree - 1`, computed as an `int` and returned as a `degree_t`. -/
def maxKeys (n : BtreeNodePage T) : ℕ := (2 * n.degree + 2 ^ 16 - 1) % 2 ^ 16

def setRoot (b : Bool) (n : BtreeNodePage T) : BtreeNodePage T := { n with root := b }
def setParent (p : ℕ) (n : BtreeNodePage T) : BtreeNodePage T := { n with parentID := p }
def setChildren (l : List ℕ) (n : BtreeNodePage T) : BtreeNodePage T := { n with children := l }
def setCells (l : List (Cell T)) (n : BtreeNodePage T) : BtreeNodePage T := { n with cells := l }

@[simp] theorem setCells_cells (l : List (Cell T)) (n : BtreeNodePage T) :
    (n.setCells l).cells = l := rfl
@[simp] theorem setCells_leaf (l : List (Cell T)) (n : BtreeNodePage T) :
    (n.setCells l).leaf = n.leaf := rfl
@[simp] theorem setCells_children (l : List (Cell T)) (n : BtreeNodePage T) :
    (n.setCells l).children = n.children := rfl
@[simp] theorem setCells_root (l : List (Cell T)) (n : BtreeNodePage T) :
    (n.setCells l).root = n.root := rfl
@[simp] theorem setCells_parentID (l : List (Cell T)) (n : BtreeNodePage T) :
    (n.setCells l).parentID = n.parentID := rfl
@[simp] theorem setCells_maxKeys (l : List (Cell T)) (n : BtreeNodePage T) :
    (n.setCells l).maxKeys = n.maxKeys := rfl

end BtreeNodePage
end Kndb
