import Kndb.Btree.DegreeOne

namespace Kndb.Btree

open Imp.Prog

variable {σ T : Type} {P : LawfulPager σ T} {s₀ : σ} {h : Heap T} {R : Heap T → Prop} {A : Imp.Stop → Prop}
variable {deg p q fuel : ℕ} {L : Layout} {n n' : BtreeNodePage T} {key : Vari} {c : Cell T} {v : T}

end Kndb.Btree
