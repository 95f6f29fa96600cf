import Kndb.FileCache
import Kndb.IOHandler.Run
import Kndb.PageCache.InStep
import Kndb.Pager.Lockstep

namespace Kndb.FileCache

open Imp Imp.Prog IOHandler

variable {α : Type} {s : FileCache} {t : PageCache Page Block} {d : Disk} {id : ℕ}

/-- The cache `c` over the blocks `d`. -/
def onDisk (c : PageCache Page Unit) (d : Disk) : PageCache Page Block where
  capacity := c.capacity
  list := c.list
  map := c.map
  objects := c.objects
  nextIt := c.nextIt
  nextObject := c.nextObject
  numBlocks := d.length
  blocks i := (d.getD i zeros).1
  junk := c.junk
  uses := c.uses

/-- A size that the pager lets the file have. -/
def Grown (d : Disk) : Prop := ∃ N ≤ MAX_FSMPAGES, d.length = N * FSMPage.getBlocksInPage

/-- The file is the blocks that the cache is over. -/
structure Stores (s : FileCache) (t : PageCache Page Block) : Prop where
  exists_disk : ∃ d, Holds s.ioHandler d ∧ Grown d ∧ t = onDisk s.cache d

theorem Grown.length_lt (h : Grown d) : d.length < 2 ^ 20 := by
  obtain ⟨N, hN, hd⟩ := h
  rw [hd]
  exact (Nat.mul_le_mul_right _ hN).trans_lt (by decide)

theorem lockstep_onCache {p : PageCache.CacheM Page Unit α} {q : PageCache.CacheM Page Block α}
    (h : ∀ d, Lockstep (fun c t => t = onDisk c d) p q) : Lockstep Stores (onCache p) q := by
  rintro s t ⟨d, hio, hd, rfl⟩
  have hrel := h d (rfl : onDisk s.cache d = onDisk s.cache d)
  rw [onCache, zoom]
  generalize p s.cache = o at hrel
  generalize q (onDisk s.cache d) = o' at hrel
  cases hrel with
  | ok hs => exact .ok ⟨d, hio, hd, hs⟩
  | throw hs => exact .throw ⟨d, hio, hd, hs⟩
  | abort m => exact .abort m
  | timeout => exact .timeout

theorem lockstep_derefMap (d : Disk) (id : ℕ) : Lockstep (fun c t => t = onDisk c d)
    (PageCache.derefMap id : PageCache.CacheM Page Unit ℕ) (PageCache.derefMap id) := by
  rintro c _ rfl
  rw [PageCache.derefMap, PageCache.derefMap, show (onDisk c d).map id = c.map id from rfl]
  rcases c.map id with _ | _ | it
  · exact .abort _
  · exact .abort _
  · dsimp only
    rw [show (onDisk c d).node it = c.node it from rfl]
    cases (c.node it).bind ListNode.page with
    | none => exact .abort _
    | some page => exact .ok rfl

theorem lockstep_moveOut (d : Disk) (id : ℕ) : Lockstep (fun c t => t = onDisk c d)
    (PageCache.moveOut id : PageCache.CacheM Page Unit ℕ) (PageCache.moveOut id) := by
  refine (lockstep_derefMap d id).bind fun page => (lockstep_change ?_).bind fun _ => lockstep_pure page
  rintro c _ rfl
  rfl

theorem lockstep_change {f : PageCache Page Unit → PageCache Page Unit}
    {g : PageCache Page Block → PageCache Page Block}
    (h : ∀ c d, g (onDisk c d) = onDisk (f c) d) : Lockstep Stores (onCache (change f)) (change g) := by
  refine lockstep_onCache fun d => Prog.lockstep_change ?_
  rintro c _ rfl
  exact h c d

theorem lockstep_useJunk : Lockstep Stores (onCache PageCache.useJunk) PageCache.useJunk := by
  refine lockstep_onCache fun d => ?_
  rintro c _ rfl
  exact .ok rfl

theorem lockstep_makePage (p : Page) : Lockstep Stores (onCache (PageCache.makePage p)) (PageCache.makePage p) := by
  refine lockstep_onCache fun d => ?_
  rintro c _ rfl
  exact .ok rfl

theorem lockstep_objects (f : (ℕ → Page) → α) :
    Lockstep Stores (gets fun s => f s.cache.objects : FileM α) (gets fun t => f t.objects) := by
  refine lockstep_gets ?_
  rintro s _ ⟨d, -, -, rfl⟩
  rfl

theorem onDisk_set {i : ℕ} (hi : i < d.length) (c : PageCache Page Unit) (buf : Buffer) :
    onDisk c (d.set i buf) =
      { onDisk c d with blocks := Function.update (onDisk c d).blocks i buf.1 } := by
  have hblocks : (fun j => ((d.set i buf).getD j zeros).1) =
      Function.update (fun j => (d.getD j zeros).1) i buf.1 := by
    funext j
    by_cases hj : j = i
    · subst hj
      rw [Function.update_self, List.getD_eq_getElem?_getD, List.getElem?_set_self hi]
      rfl
    · rw [Function.update_of_ne hj, List.getD_eq_getElem?_getD, List.getElem?_set_ne (Ne.symm hj),
        List.getD_eq_getElem?_getD]
  rw [onDisk, onDisk, List.length_set, hblocks]

theorem lockstep_writeBlock (buf : Buffer) (id : ℕ) :
    Lockstep Stores (onFile (IOHandler.writeBlock buf id)) (PageCache.writeBlock none buf.1 id) := by
  rintro s _ ⟨d, hio, hd, rfl⟩
  by_cases hid : id < d.length
  · have hwrite : IOHandler.writeBlock buf id s.ioHandler =
        .ok () { s.ioHandler with file := pwrite buf.1 (id * PG_SZ % 2 ^ 32) s.ioHandler.file } := by
      change (if s.ioHandler.blocks ≤ id then raise _ else change _ : Code IOHandler Unit) s.ioHandler = _
      rw [if_neg (by rw [hio.blocks]; omega)]
      rfl
    have hblock : PageCache.writeBlock none buf.1 id (onDisk s.cache d) = .ok () (onDisk s.cache (d.set id buf)) := by
      rw [onDisk_set hid]
      change (if d.length ≤ id then _ else _ : Code (PageCache Page Block) Unit) _ = _
      rw [if_neg (by omega)]
      rfl
    rw [onFile, zoom_ok hwrite, hblock]
    refine .ok ⟨_, hio.written hid hd.length_lt buf, ?_, rfl⟩
    rwa [Grown, List.length_set]
  · have hwrite : IOHandler.writeBlock buf id s.ioHandler = .throw PageCache.outOfBounds s.ioHandler := by
      change (if s.ioHandler.blocks ≤ id then raise _ else change _ : Code IOHandler Unit) s.ioHandler = _
      rw [if_pos (by rw [hio.blocks]; omega)]
      rfl
    have hblock : PageCache.writeBlock none buf.1 id (onDisk s.cache d) =
        .throw PageCache.outOfBounds (onDisk s.cache d) := by
      change (if d.length ≤ id then _ else _ : Code (PageCache Page Block) Unit) _ = _
      rw [if_pos (by omega)]
      rfl
    rw [onFile, zoom_throw hwrite, hblock]
    exact .throw ⟨d, hio, hd, rfl⟩

theorem lockstep_readBlock (id : ℕ) :
    Lockstep Stores (gets uninitialised >>= fun buf => onFile (IOHandler.readBlock buf id))
      (PageCache.readBlock id) := by
  rintro s _ ⟨d, hio, hd, rfl⟩
  change Outcome.Rel Stores (onFile (IOHandler.readBlock (uninitialised s) id) s) _
  by_cases hid : id < d.length
  · have hread : IOHandler.readBlock (uninitialised s) id s.ioHandler = .ok d[id].1 s.ioHandler := by
      change (if s.ioHandler.blocks ≤ id then raise _ else _ : Code IOHandler Block) s.ioHandler = _
      rw [if_neg (by rw [hio.blocks]; omega)]
      change Outcome.ok (readInto (uninitialised s) (pread PG_SZ (id * PG_SZ % 2 ^ 32) s.ioHandler.file)) _ = _
      have hlt := hd.length_lt
      rw [Nat.mod_eq_of_lt (by rw [PG_SZ]; omega), pread, hio.content hid, readInto, d[id].2,
        List.drop_of_length_le (uninitialised s).2.le, List.append_nil]
    have hblock : PageCache.readBlock id (onDisk s.cache d) = .ok d[id].1 (onDisk s.cache d) := by
      change (if d.length ≤ id then _ else _ : Code (PageCache Page Block) Block) _ = _
      rw [if_neg (by omega)]
      change Outcome.ok (d.getD id zeros).1 _ = _
      rw [List.getD_eq_getElem?_getD, List.getElem?_eq_getElem hid, Option.getD_some]
    rw [onFile, zoom_ok hread, hblock]
    exact .ok ⟨d, hio, hd, rfl⟩
  · have hread : IOHandler.readBlock (uninitialised s) id s.ioHandler = .throw PageCache.outOfBounds s.ioHandler := by
      change (if s.ioHandler.blocks ≤ id then raise _ else _ : Code IOHandler Block) s.ioHandler = _
      rw [if_pos (by rw [hio.blocks]; omega)]
      rfl
    have hblock : PageCache.readBlock id (onDisk s.cache d) = .throw PageCache.outOfBounds (onDisk s.cache d) := by
      change (if d.length ≤ id then _ else _ : Code (PageCache Page Block) Block) _ = _
      rw [if_pos (by omega)]
      rfl
    rw [onFile, zoom_throw hread, hblock]
    exact .throw ⟨d, hio, hd, rfl⟩

/-- The new blocks are zeros, as those behind the end were. -/
theorem rel_grow (h : Stores s t) (hn : s.ioHandler.blocks / FSMPage.getBlocksInPage ≠ MAX_FSMPAGES) :
    (cacheOps.createMultipleBlocks FSMPage.getBlocksInPage s).Rel Stores
      (PageCache.cacheOps.createMultipleBlocks FSMPage.getBlocksInPage t) := by
  obtain ⟨d, hio, ⟨N, hN, hd⟩, rfl⟩ := h
  have hpos : 0 < FSMPage.getBlocksInPage := FreeSpaceMap.getBlocksInPage_pos
  rw [hio.blocks, hd, Nat.mul_div_cancel _ hpos] at hn
  have hgrown : Grown (d ++ List.replicate FSMPage.getBlocksInPage zeros) := by
    refine ⟨N + 1, by omega, ?_⟩
    rw [List.length_append, List.length_replicate, hd, Nat.succ_mul]
  have hlt := hgrown.length_lt
  rw [List.length_append, List.length_replicate] at hlt
  obtain ⟨hno, hnext⟩ := hio.created hlt
  have hcreate : IOHandler.createMultipleBlocks false (FSMPage.getBlocksInPage : ℤ) s.ioHandler =
      .ok d.length (grown FSMPage.getBlocksInPage s.ioHandler) := by
    rw [← hno]
    rfl
  have hblocks : (fun i => ((d ++ List.replicate FSMPage.getBlocksInPage zeros).getD i zeros).1) =
      fun i => (d.getD i zeros).1 := by
    funext i
    rw [List.getD_eq_getElem?_getD, List.getD_eq_getElem?_getD, List.getElem?_append]
    split
    · rfl
    · rw [List.getElem?_replicate, List.getElem?_eq_none (by omega)]
      split <;> rfl
  have hdisk : onDisk s.cache (d ++ List.replicate FSMPage.getBlocksInPage zeros) =
      { onDisk s.cache d with numBlocks := d.length + FSMPage.getBlocksInPage } := by
    rw [onDisk, onDisk, hblocks, List.length_append, List.length_replicate]
  have hblock : PageCache.cacheOps.createMultipleBlocks FSMPage.getBlocksInPage (onDisk s.cache d) =
      .ok d.length (onDisk s.cache (d ++ List.replicate FSMPage.getBlocksInPage zeros)) := by
    rw [PageCache.Works.cacheOps_createMultipleBlocks hpos, hdisk]
    rfl
  rw [hblock]
  change (onFile (IOHandler.createMultipleBlocks false (FSMPage.getBlocksInPage : ℤ)) s).Rel Stores _
  rw [onFile, zoom_ok hcreate]
  exact .ok ⟨_, hnext, hgrown, rfl⟩

theorem toBuffer_val (J : Junk) (p : Page) : (toBuffer J p).map Subtype.val = Page.format.toBytes J p := by
  rw [toBuffer, Option.map_map]
  exact Option.attach_map_subtype_val _

theorem lockstep_writePage (id : ℕ) : Lockstep Stores (writePage id) (PageCache.writePage Page.format none id) := by
  refine (lockstep_onCache fun d => lockstep_derefMap d id).bind fun page => ?_
  refine (lockstep_objects (· page)).bind fun p => lockstep_useJunk.bind fun J => ?_
  rw [← toBuffer_val]
  cases toBuffer J p with
  | none => exact lockstep_halt _
  | some buf => exact lockstep_writeBlock buf id

theorem lockstep_evictBack : Lockstep Stores evictBack (PageCache.evictBack Page.format none) := by
  rintro s _ ⟨d, hio, hd, rfl⟩
  have hs : Stores s (onDisk s.cache d) := ⟨d, hio, hd, rfl⟩
  rw [evictBack, PageCache.evictBack]
  change Outcome.Rel Stores (if s.cache.list.length ≤ s.cache.capacity then _ else _)
    (if s.cache.list.length ≤ s.cache.capacity then _ else _)
  split
  · exact .ok hs
  · rw [show (onDisk s.cache d).list = s.cache.list from rfl]
    cases (s.cache.list.getLast?).bind ListNode.page with
    | none => exact .abort _
    | some back => exact ((lockstep_writePage _).bind fun _ => lockstep_change fun _ _ => rfl) hs

theorem lockstep_updateLRU (page : ℕ) :
    Lockstep Stores (updateLRU page) (PageCache.updateLRU Page.format none page) := by
  refine (lockstep_objects fun objects => (objects page).pageID).bind fun id => ?_
  refine (lockstep_change fun _ _ => rfl).bind fun _ => (lockstep_change fun _ _ => rfl).bind fun _ => ?_
  exact lockstep_evictBack

theorem lockstep_insertPage (p : Page) : Lockstep Stores (insertPage p) (PageCache.insertPage Page.format none p) :=
  (lockstep_makePage p).bind lockstep_updateLRU

theorem lockstep_readPage (T : PageType) (id : ℕ) :
    Lockstep Stores (readPage T id) (PageCache.readPage Page.format T id) := by
  refine (lockstep_readBlock id).bind fun b => lockstep_useJunk.bind fun J => ?_
  cases Page.format.ofBytes J T id b with
  | none => exact lockstep_halt _
  | some p => exact lockstep_makePage p

theorem lockstep_retrievePage (T : PageType) (id : ℕ) :
    Lockstep Stores (retrievePage T id) (PageCache.retrievePage Page.format none T id) := by
  have hmap : Lockstep Stores (gets fun s => (s.cache.map id).isSome : FileM Bool)
      (gets fun t => (t.map id).isSome) := by
    refine lockstep_gets ?_
    rintro s _ ⟨d, -, -, rfl⟩
    rfl
  have hend : Lockstep Stores (do
      let page ← onCache (PageCache.derefMap id)
      if (← gets fun s => s.cache.objects page).type = T then
        return page
      else
        raise .badCast : FileM ℕ) (do
      let page ← PageCache.derefMap id
      if Page.format.type (← gets fun s => s.objects page) = T then
        return page
      else
        raise .badCast) := by
    refine (lockstep_onCache fun d => lockstep_derefMap d id).bind fun page => ?_
    refine (lockstep_objects (· page)).bind fun p => ?_
    exact .ite (lockstep_pure page) (lockstep_raise _)
  refine hmap.bind fun b => .ite ?_ ?_
  · refine (lockstep_onCache fun d => lockstep_moveOut d id).bind fun page => ?_
    exact (lockstep_updateLRU page).bind fun _ => hend
  · exact (lockstep_readPage T id).bind fun page => (lockstep_updateLRU page).bind fun _ => hend

theorem lockstep_flush (order : List ℕ) : Lockstep Stores (flush order) (PageCache.flush Page.format order) := by
  induction order with
  | nil => exact lockstep_pure ()
  | cons id order ih => exact (lockstep_writePage id).bind fun _ => ih

/-- The classes over the cache cannot tell the file from the blocks. -/
theorem lockstep_cacheOps : cacheOps.Lockstep Stores PageCache.cacheOps where
  retrievePage := lockstep_retrievePage
  insertPage := lockstep_insertPage
  load := by
    rintro s _ ⟨d, -, -, rfl⟩ page
    rfl
  store := by
    rintro s _ ⟨d, hio, hd, rfl⟩ page p
    exact ⟨d, hio, hd, rfl⟩
  getNumBlocks := by
    rintro s _ ⟨d, hio, -, rfl⟩
    exact hio.blocks
  grow := rel_grow

end Kndb.FileCache
