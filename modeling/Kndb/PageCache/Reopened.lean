import Kndb.PageCache.Format
import Kndb.PageCache.Keeping
import Kndb.PageCache.Refines

namespace Kndb

open Imp Imp.Prog Codec

namespace Page

/-- Pages that can be written and read back.  Of the id of the parent four bytes are written. -/
def Lasts : Page → Prop
  | node n => NodeSound (n.setParent (n.parentID % 2 ^ 32))
  | p => p.Sound

/-- The node may have lost a parent id that is no page id. -/
def NodeBack (n n' : BtreeNodePage Tuple) : Prop :=
  ∃ id, n' = n.setParent id ∧ (n.parentID < 2 ^ 32 → id = n.parentID)

/-- What comes back of a page that lasts. -/
def Back : Page → Page → Prop
  | schema p, schema q => q = p
  | fsm p, fsm q => FSMPage.Extends p q
  | table p, table q => TablePage.Same p q
  | node n, node n' => NodeBack n n'
  | _, _ => False

variable {p q : Page}

theorem Back.refl (p : Page) : Back p p := by
  cases p with
  | schema p => exact rfl
  | fsm p => exact FSMPage.Extends.refl p
  | table p => exact ⟨rfl, rfl, rfl, rfl⟩
  | node n => exact ⟨n.parentID, rfl, fun _ => rfl⟩

theorem back_of_again (h : Again p q) : Back p q := by
  cases p with
  | schema p =>
    obtain rfl : schema p = q := h
    exact .refl _
  | fsm p =>
    cases q with
    | fsm q => exact h
    | _ => cases h
  | table p =>
    cases q with
    | table q => exact h
    | _ => cases h
  | node n =>
    obtain rfl : node n = q := h
    exact .refl _

theorem Back.type_eq (h : Back p q) : q.type = p.type := by
  cases p <;> cases q <;> first | rfl | cases h

theorem format_lasts : format.Recovers Lasts Back := by
  intro J p hp
  cases p with
  | node n =>
    obtain ⟨b, hb, q, hq, -, hread⟩ := format_recovers J (.node (n.setParent (n.parentID % 2 ^ 32))) hp
    obtain rfl : node (n.setParent (n.parentID % 2 ^ 32)) = q := hq
    refine ⟨b, ?_, .node (n.setParent (n.parentID % 2 ^ 32)), ⟨_, rfl, Nat.mod_eq_of_lt⟩, ?_, hread⟩
    · rw [← hb]
      exact format_toBytes_congr (congrFun (BtreeNodePage.toBytes_setParent J n) []).symm
    · change NodeSound (n.setParent (n.parentID % 2 ^ 32 % 2 ^ 32))
      rwa [Nat.mod_mod]
  | schema p =>
    obtain ⟨b, hb, q, hq, hgood, hread⟩ := format_recovers J (.schema p) hp
    obtain rfl : schema p = q := hq
    exact ⟨b, hb, _, .refl _, hgood, hread⟩
  | fsm p =>
    obtain ⟨b, hb, q, hq, hgood, hread⟩ := format_recovers J (.fsm p) hp
    refine ⟨b, hb, q, back_of_again hq, ?_, hread⟩
    cases q with
    | fsm q => exact hgood
    | _ => cases hq
  | table p =>
    obtain ⟨b, hb, q, hq, hgood, hread⟩ := format_recovers J (.table p) hp
    refine ⟨b, hb, q, back_of_again hq, ?_, hread⟩
    cases q with
    | table q => exact hgood
    | _ => cases hq

end Page

namespace PageCache

variable {base : ℕ → Option Page} {s : PageCache Page Block} {es : List Entry} {order : List ℕ}

theorem Resident.refines (h : Resident base s es) (hl : ∀ id p, pages base s id = some p → p.Lasts) :
    Refines Page.format Page.Lasts Page.Back s es (pages (fun _ => none) s) := by
  refine ⟨⟨h.toLinked, fun e he => pages_of_mem h.toLinked he, fun {id p} hp => ?_, fun {id p} hid hp => ?_⟩, h.size⟩
  · by_cases hid : id ∈ ids Page.format s es
    · obtain ⟨e, he, rfl⟩ := mem_ids.mp hid
      rw [pages_of_mem h.toLinked he] at hp
      cases hp
      exact ⟨hl _ _ (pages_of_mem h.toLinked he), rfl, h.inFile e he⟩
    · rw [pages_of_not_mem h.toLinked hid] at hp
      cases hp
  · rw [pages_of_not_mem h.toLinked hid] at hp
    cases hp

/-- After the destructor a new cache of the file has a page for each that there was. -/
theorem Resident.flush (h : Resident base s es) (hl : ∀ id p, pages base s id = some p → p.Lasts)
    (hn : order.Nodup) (horder : ∀ id, id ∈ order ↔ (s.map id).isSome = true) :
    ∃ s₁, PageCache.flush Page.format order s = .ok () s₁ ∧ s₁.numBlocks = s.numBlocks ∧ ∃ base',
      (∀ id p, base' id = some p → p.Lasts) ∧ (∀ id, Option.Rel Page.Back (pages base s id) (base' id)) ∧
      ∀ capacity objects junk, OnFile base' (new capacity s₁.numBlocks s₁.blocks objects junk) := by
  have hcached : ∀ id, id ∈ order ↔ id ∈ ids Page.format s es := fun id => (horder id).trans h.toLinked.map_isSome_iff
  obtain ⟨s₁, hrun, -, hnum, hother, hblocks⟩ := (h.refines hl).flush Page.format_lasts hn fun id => (hcached id).mp
  have hpage : ∀ id, ∃ o, Option.Rel Page.Back (pages base s id) o ∧ ∀ p, o = some p → p.Lasts ∧
      id < s₁.numBlocks ∧ ∀ J, Page.format.ofBytes J p.type id (s₁.blocks id) = some p := by
    intro id
    by_cases hid : id ∈ ids Page.format s es
    · obtain ⟨e, he, rfl⟩ := mem_ids.mp hid
      have hp : pages base s _ = _ := pages_of_mem h.toLinked he
      obtain ⟨J, hb⟩ := hblocks _ ((hcached _).mpr hid) _ (pages_of_mem h.toLinked he)
      obtain ⟨b, hb', q, hback, hq, hread⟩ := Page.format_lasts J _ (hl _ _ hp)
      obtain rfl : s₁.blocks _ = b := Option.some.inj (hb.symm.trans hb')
      refine ⟨some q, hp ▸ .some hback, fun p hpq => ?_⟩
      obtain rfl := Option.some.inj hpq
      exact ⟨hq, hnum ▸ h.inFile e he, fun J => hback.type_eq ▸ hread J⟩
    -- a page that is not in the cache is still in its block
    · refine ⟨base id, ?_, fun p hp => ?_⟩
      · rw [pages_of_not_mem h.toLinked hid]
        cases base id with
        | none => exact .none
        | some p => exact .some (.refl p)
      · obtain ⟨hlt, hread⟩ := h.onFile id p hp
        rw [hother id ((hcached id).not.mpr hid)]
        exact ⟨hl id p ((pages_of_not_mem h.toLinked hid).trans hp), hnum ▸ hlt, hread⟩
  choose base' hback hbase using hpage
  exact ⟨s₁, hrun, hnum, base', fun id p hp => (hbase id p hp).1, hback, fun _ _ _ id p hp => (hbase id p hp).2⟩

end PageCache
end Kndb
