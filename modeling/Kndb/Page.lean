import Kndb.BtreeNodePage
import Kndb.FSMPage
import Kndb.SchemaPage
import Kndb.TablePage

namespace Kndb

/-- The class of a page, in the order of `pg_type_id`. -/
inductive PageType where
  | schema
  | fsm
  | table
  | node
deriving DecidableEq, Repr

inductive Page where
  | schema (p : SchemaPage)
  | fsm (p : FSMPage)
  | table (p : TablePage)
  | node (p : BtreeNodePage Tuple)
deriving DecidableEq

namespace Page

def pageID : Page → ℕ
  | schema p => p.pageID
  | fsm p => p.pageID
  | table p => p.pageID
  | node p => p.pageID

def type : Page → PageType
  | schema _ => .schema
  | fsm _ => .fsm
  | table _ => .table
  | node _ => .node

end Page

/-- A class derived from `Page`; `cast` is `dynamic_cast`. -/
class PageClass (T : Type) where
  type : PageType
  wrap : T → Page
  cast : Page → Option T
  cast_wrap : ∀ t, cast (wrap t) = some t
  type_wrap : ∀ t, (wrap t).type = type

attribute [simp] PageClass.cast_wrap PageClass.type_wrap

instance : PageClass SchemaPage where
  type := .schema
  wrap := .schema
  cast | .schema p => some p | _ => none
  cast_wrap _ := rfl
  type_wrap _ := rfl

instance : PageClass FSMPage where
  type := .fsm
  wrap := .fsm
  cast | .fsm p => some p | _ => none
  cast_wrap _ := rfl
  type_wrap _ := rfl

instance : PageClass TablePage where
  type := .table
  wrap := .table
  cast | .table p => some p | _ => none
  cast_wrap _ := rfl
  type_wrap _ := rfl

instance : PageClass (BtreeNodePage Tuple) where
  type := .node
  wrap := .node
  cast | .node p => some p | _ => none
  cast_wrap _ := rfl
  type_wrap _ := rfl

/-- The type `T` of `createNewPage<T>(args...)` and the arguments for its constructor, which takes
the page id after them. -/
inductive PageArgs where
  | schema
  | fsm
  | table (types : Tuple) (btreePageID : ℕ)
  | node (deg parentID : ℕ) (is_root is_leaf : Bool)

namespace PageArgs

def type : PageArgs → PageType
  | schema => .schema
  | fsm => .fsm
  | table _ _ => .table
  | node _ _ _ _ => .node

def construct {σ : Type} (pageID : ℕ) : PageArgs → Code σ Page
  | schema => pure (.schema (.new pageID))
  | fsm => pure (.fsm (.new pageID))
  | table types btreePageID => do return .table (← TablePage.new types btreePageID pageID)
  | node deg parentID is_root is_leaf => pure (.node (.new deg parentID is_root is_leaf pageID))

/-- The arguments that the constructor takes. -/
def Accepts : PageArgs → Prop
  | table types _ => TablePage.Accepts types
  | _ => True

/-- The page that the constructor makes of arguments it takes. -/
def page (pageID : ℕ) : PageArgs → Page
  | schema => .schema (.new pageID)
  | fsm => .fsm (.new pageID)
  | table types btreePageID => .table { pageID, types, btreePageID, numTuples := 0 }
  | node deg parentID is_root is_leaf => .node (.new deg parentID is_root is_leaf pageID)

variable {σ : Type} {args : PageArgs}

theorem construct_of_accepts (h : args.Accepts) (pageID : ℕ) (s : σ) :
    args.construct pageID s = .ok (args.page pageID) s := by
  cases args with
  | table types btreePageID => exact Imp.Prog.bind_ok (TablePage.new_of_accepts h btreePageID pageID s)
  | _ => rfl

theorem construct_of_not_accepts (h : ¬args.Accepts) (pageID : ℕ) (s : σ) :
    ∃ m, args.construct pageID s = .abort m := by
  cases args with
  | table types btreePageID =>
    obtain ⟨m, hm⟩ := TablePage.new_of_not_accepts h btreePageID pageID s
    exact ⟨m, by rw [construct, Imp.Prog.bind_apply, Imp.Prog.seq, hm]⟩
  | _ => exact absurd trivial h

@[simp] theorem page_pageID (pageID : ℕ) : (args.page pageID).pageID = pageID := by
  cases args <;> rfl

@[simp] theorem page_type (pageID : ℕ) : (args.page pageID).type = args.type := by
  cases args <;> rfl

end PageArgs

/-- What the classes above use of the page cache and of the file.  `load` and `store` are access
through a reference that `retrievePage` has returned. -/
structure CacheOps (Ref σ : Type) where
  retrievePage : PageType → ℕ → Code σ Ref
  insertPage : Page → Code σ Unit
  load : Ref → σ → Page
  store : Ref → Page → σ → σ
  getNumBlocks : σ → ℕ
  createMultipleBlocks : ℕ → Code σ ℕ

namespace CacheOps

open Imp Imp.Prog

variable {Ref σ T α : Type} [PageClass T] (C : CacheOps Ref σ)

/-- `retrievePage<T>(pageID)`. -/
def retrieve (T : Type) [PageClass T] (pageID : ℕ) : Code σ Ref :=
  C.retrievePage (PageClass.type T) pageID

/-- Call a member function of the page behind a reference of type `T&`. -/
def call (r : Ref) (p : Code T α) : Code σ α := fun s =>
  match PageClass.cast (C.load r s) with
  | none => .abort "dangling reference"
  | some t => (p.zoom (fun _ : σ => t) fun t' s' => C.store r (PageClass.wrap t') s') s

/-- Read the page behind a reference of type `T&`. -/
def deref (T : Type) [PageClass T] (r : Ref) : Code σ T := fun s =>
  match PageClass.cast (C.load r s) with
  | none => .abort "dangling reference"
  | some t => .ok t s

end CacheOps
end Kndb
