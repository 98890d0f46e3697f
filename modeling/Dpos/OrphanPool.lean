import Dpos.PreExec

/-! The pool of blocks whose parent is not known yet, as in `orphanpool.go`: a map by the
hash of the block, a map by the hash of the parent, and the orphan that expires first. -/
namespace Dpos.OrphanPool

open List Function Crypto

structure Orphan where
  block : Block
  expiration : ℤ
  broadcast : Bool
  pid : String
  sequence : ℤ
  deriving DecidableEq, Repr

/-- `OrphanPool`; a parent hash that is not in `prevOrphans` has the empty list. -/
structure Pool where
  orphans : List (Bytes × Orphan)
  prevOrphans : Bytes → List Orphan
  oldestOrphan : Option Orphan

def newOrphanPool : Pool := ⟨[],fun _ => [],none⟩

structure Order where
  visit : List Orphan → List Orphan
  perm : ∀ l, (visit l).Perm l

section
variable (c : Crypto) (cfg : Config) (op : Pool)

def Orphan.hash (orphan : Orphan) : Bytes := orphan.block.hash c cfg

def isKnownOrphan (hash : Bytes) : Bool := op.orphans.any fun e => e.1 = hash

/-- `removeOrphanBlock`: all blocks of the parent that have the hash go. -/
def removeOrphanBlock (orphan : Orphan) : Pool :=
  { op with
    orphans := op.orphans.filter fun e => e.1 ≠ orphan.hash c cfg
    prevOrphans := Function.update op.prevOrphans orphan.block.parentHash
      ((op.prevOrphans orphan.block.parentHash).filter fun o => o.hash c cfg ≠ orphan.hash c cfg) }

def removeOrphanBlockByHash (hash : Bytes) : Pool :=
  match op.orphans.find? fun e => e.1 = hash with
  | some e => removeOrphanBlock c cfg op e.2
  | none => op

def visitOrphan (now : ℤ) (oBlock : Orphan) : Pool :=
  if oBlock.expiration < now then removeOrphanBlock c cfg op oBlock
  else
    match op.oldestOrphan with
    | none => { op with oldestOrphan := some oBlock }
    | some oldest => if oBlock.expiration < oldest.expiration then { op with oldestOrphan := some oBlock } else op

def sweep (order : Order) (now : ℤ) : Pool :=
  (order.visit (op.orphans.map Prod.snd)).foldl (fun op => visitOrphan c cfg op now) op

/-- The remembered orphan makes room; there is one if the pool is full. -/
def evict (maxOrphanBlocks : ℕ) : Pool :=
  if maxOrphanBlocks < op.orphans.length+1 then
    match op.oldestOrphan with
    | none => op
    | some oldest => { removeOrphanBlock c cfg op oldest with oldestOrphan := none }
  else op

def insertOrphan (orphan : Orphan) : Pool :=
  { op with
    orphans := (orphan.hash c cfg,orphan) :: op.orphans.filter fun e => e.1 ≠ orphan.hash c cfg
    prevOrphans := Function.update op.prevOrphans orphan.block.parentHash
      (op.prevOrphans orphan.block.parentHash ++ [orphan]) }

def addOrphanBlock (maxOrphanBlocks : ℕ) (order : Order) (now : ℤ) (orphan : Orphan) : Pool :=
  insertOrphan c cfg (evict c cfg (sweep c cfg op order now) maxOrphanBlocks) orphan

/-- What the loops of `ProcessOrphans` leave: the pool, the hashes still to process, the blocks passed to
`maybeAcceptBlock` in order, and its error. -/
structure Pass where
  pool : Pool
  hashes : List Bytes
  calls : List Orphan
  err : Option String

def Pass.after (p : Pass) (calls : List Orphan) : Pass := { p with calls := calls ++ p.calls }

/-- The loop over the children of a hash. The index stays at the first child, so that `count` turns
are enough. -/
def processChildren (accept : Orphan → Option String) (hash : Bytes) : ℕ → Pool → List Bytes → Pass
  | 0,op,hashes => ⟨op,hashes,[],none⟩
  | count+1,op,hashes =>
    match op.prevOrphans hash with
    | [] => ⟨op,hashes,[],none⟩
    | orphan :: _ =>
      let op := removeOrphanBlock c cfg op orphan
      match accept orphan with
      | some err => ⟨op,hashes,[orphan],some err⟩
      | none => (processChildren accept hash count op (hashes ++ [orphan.hash c cfg])).after [orphan]

/-- The loop over the hashes to process, with a bound on the turns. -/
def processHashes (accept : Orphan → Option String) : ℕ → Pool → List Bytes → Pass
  | _,op,[] => ⟨op,[],[],none⟩
  | 0,op,hashes => ⟨op,hashes,[],none⟩
  | fuel+1,op,hash :: hashes =>
    let p := processChildren c cfg accept hash (op.prevOrphans hash).length op hashes
    if p.err.isSome then p else (processHashes accept fuel p.pool p.hashes).after p.calls

/-- `ProcessOrphans`; every turn but the first one is for an orphan that was removed. -/
def processOrphans (accept : Orphan → Option String) (hash : Bytes) : Pass :=
  processHashes c cfg accept (op.orphans.length+1) op [hash]

end

inductive Op
  | add (order : Order) (now : ℤ) (orphan : Orphan)
  | remove (orphan : Orphan)
  | removeByHash (hash : Bytes)
  | process (accept : Orphan → Option String) (hash : Bytes)

section
variable (c : Crypto) (cfg : Config) (maxOrphanBlocks : ℕ)

def step (op : Pool) : Op → Pool
  | .add order now orphan => addOrphanBlock c cfg op maxOrphanBlocks order now orphan
  | .remove orphan => removeOrphanBlock c cfg op orphan
  | .removeByHash hash => removeOrphanBlockByHash c cfg op hash
  | .process accept hash => (processOrphans c cfg op accept hash).pool

def run (op : Pool) (ops : List Op) : Pool := ops.foldl (step c cfg maxOrphanBlocks) op

end

/-- Both maps have the same hashes, and each orphan stands under its own hash and under its parent. -/
structure Inv (c : Crypto) (cfg : Config) (op : Pool) : Prop where
  keys : (op.orphans.map Prod.fst).Nodup
  keyed : ∀ e ∈ op.orphans, e.2.hash c cfg = e.1
  filed : ∀ parent, ∀ o ∈ op.prevOrphans parent, o.block.parentHash = parent
  indexed : ∀ e ∈ op.orphans, e.2 ∈ op.prevOrphans e.2.block.parentHash
  known : ∀ parent, ∀ o ∈ op.prevOrphans parent, ∃ e ∈ op.orphans, e.1 = o.hash c cfg

lemma inv_newOrphanPool (c : Crypto) (cfg : Config) : Inv c cfg newOrphanPool := by
  constructor <;> simp [newOrphanPool]

section
variable {c : Crypto} {cfg : Config} {op : Pool} {orphan o : Orphan} {e : Bytes × Orphan}

lemma mem_remove_orphans :
    e ∈ (removeOrphanBlock c cfg op orphan).orphans ↔ e ∈ op.orphans ∧ e.1 ≠ orphan.hash c cfg := by
  simp [removeOrphanBlock]

lemma mem_remove_prevOrphans (hc : c.Ideal) (h : Inv c cfg op) {p : Bytes} :
    o ∈ (removeOrphanBlock c cfg op orphan).prevOrphans p ↔
      o ∈ op.prevOrphans p ∧ o.hash c cfg ≠ orphan.hash c cfg := by
  unfold removeOrphanBlock
  by_cases hp : p = orphan.block.parentHash
  · simp [hp]
  · simp only [update_of_ne hp]
    refine ⟨fun ho => ⟨ho,fun hh => hp ?_⟩,And.left⟩
    rw [← h.filed p o ho]
    exact (Block.hash_inj hc hh).2.2

lemma Inv.remove (h : Inv c cfg op) (hc : c.Ideal) (orphan : Orphan) : Inv c cfg (removeOrphanBlock c cfg op orphan) where
  keys := (filter_sublist.map Prod.fst).nodup h.keys
  keyed e he := h.keyed e (mem_remove_orphans.mp he).1
  filed parent o ho := h.filed parent o ((mem_remove_prevOrphans hc h).mp ho).1
  indexed e he := by
    obtain ⟨hme,hne⟩ := mem_remove_orphans.mp he
    exact (mem_remove_prevOrphans hc h).mpr ⟨h.indexed e hme,h.keyed e hme ▸ hne⟩
  known parent o ho := by
    obtain ⟨hme,hne⟩ := (mem_remove_prevOrphans hc h).mp ho
    obtain ⟨e,he,hk⟩ := h.known parent o hme
    exact ⟨e,mem_remove_orphans.mpr ⟨he,hk ▸ hne⟩,hk⟩

lemma Inv.setOldest (h : Inv c cfg op) (o : Option Orphan) : Inv c cfg {op with oldestOrphan := o} :=
  ⟨h.keys,h.keyed,h.filed,h.indexed,h.known⟩

lemma Inv.removeByHash (h : Inv c cfg op) (hc : c.Ideal) (hash : Bytes) : Inv c cfg (removeOrphanBlockByHash c cfg op hash) := by
  unfold removeOrphanBlockByHash
  split
  · exact h.remove hc _
  · exact h

lemma length_remove_le (orphan : Orphan) : (removeOrphanBlock c cfg op orphan).orphans.length ≤ op.orphans.length :=
  length_filter_le _ _

lemma length_remove (he : e ∈ op.orphans)
    (hk : e.1 = orphan.hash c cfg) : (removeOrphanBlock c cfg op orphan).orphans.length < op.orphans.length := by
  refine lt_of_le_of_ne (length_remove_le orphan) fun heq => ?_
  have hs := filter_sublist.eq_of_length heq
  have hme : e ∈ (removeOrphanBlock c cfg op orphan).orphans := by
    rw [removeOrphanBlock,hs]
    exact he
  exact (mem_remove_orphans.mp hme).2 hk

def live (op : Pool) (now : ℤ) : List (Bytes × Orphan) := op.orphans.filter fun e => ¬e.2.expiration < now

lemma Inv.visit (h : Inv c cfg op) (hc : c.Ideal) (now : ℤ) (ob : Orphan) : Inv c cfg (visitOrphan c cfg op now ob) := by
  unfold visitOrphan
  split_ifs
  · exact h.remove hc ob
  · split
    · exact h.setOldest _
    · split_ifs
      · exact h.setOldest _
      · exact h

lemma orphans_visit (now : ℤ) (ob : Orphan) : (visitOrphan c cfg op now ob).orphans =
      op.orphans.filter fun e => ¬(ob.expiration < now ∧ e.1 = ob.hash c cfg) := by
  unfold visitOrphan
  split_ifs with he
  · simp [removeOrphanBlock,he]
  · split
    · simp [he]
    · split_ifs <;> simp [he]

lemma orphans_foldl_visit (now : ℤ) (v : List Orphan) (op : Pool) :
    (v.foldl (fun op => visitOrphan c cfg op now) op).orphans =
      op.orphans.filter fun e => ∀ o ∈ v, ¬(o.expiration < now ∧ e.1 = o.hash c cfg) := by
  induction v generalizing op with
  | nil => simp
  | cons o v ih =>
    rw [foldl_cons,ih,orphans_visit,filter_filter]
    refine filter_congr fun e _ => ?_
    simp only [forall_mem_cons,Bool.decide_and,Bool.and_comm]

lemma Inv.foldl_visit (h : Inv c cfg op) (hc : c.Ideal) (now : ℤ) (v : List Orphan) :
    Inv c cfg (v.foldl (fun op => visitOrphan c cfg op now) op) :=
  foldlRecOn v _ h fun _ h o _ => h.visit hc now o

lemma Inv.orphans_sweep (h : Inv c cfg op) (od : Order) (now : ℤ) :
    (sweep c cfg op od now).orphans = live op now := by
  rw [sweep,orphans_foldl_visit]
  refine filter_congr fun e he => decide_eq_decide.mpr ⟨fun ha hex => ?_,fun hl o ho hb => ?_⟩
  · exact ha e.2 ((od.perm _).mem_iff.mpr (mem_map_of_mem he)) ⟨hex,(h.keyed e he).symm⟩
  · obtain ⟨e',he',rfl⟩ := mem_map.mp ((od.perm _).mem_iff.mp ho)
    have hk : e.1 = e'.1 := hb.2.trans (h.keyed e' he')
    exact hl (inj_on_of_nodup_map h.keys he he' hk ▸ hb.1)

/-- The remembered orphan is a visited one that has not expired, or the old one, and no visited one
expires before it. -/
theorem oldest_foldl_visit (now : ℤ) (v : List Orphan) (op : Pool) :
    (∃ o ∈ v, ¬o.expiration < now ∧ (v.foldl (fun op => visitOrphan c cfg op now) op).oldestOrphan = some o) ∨
      (v.foldl (fun op => visitOrphan c cfg op now) op).oldestOrphan = op.oldestOrphan ∧
        ∀ o ∈ v, ¬o.expiration < now → ∃ ol, op.oldestOrphan = some ol ∧ ¬o.expiration < ol.expiration := by
  induction v generalizing op with
  | nil => simp
  | cons o v ih =>
    rw [foldl_cons]
    rcases ih (visitOrphan c cfg op now o) with ⟨o',ho',hl,he⟩ | ⟨he,ha⟩
    · exact .inl ⟨o',mem_cons_of_mem _ ho',hl,he⟩
    · rw [he]
      unfold visitOrphan at ha ⊢
      split_ifs at ha ⊢ with hex
      · refine .inr ⟨rfl,forall_mem_cons.mpr ⟨fun hl => absurd hex hl,ha⟩⟩
      · cases hold : op.oldestOrphan with
        | none => exact .inl ⟨o,mem_cons_self,hex,by simp⟩
        | some ol =>
          simp only [hold] at ha ⊢
          split_ifs at ha ⊢ with hea
          · exact .inl ⟨o,mem_cons_self,hex,rfl⟩
          · refine .inr ⟨hold,forall_mem_cons.mpr ⟨fun _ => ⟨ol,rfl,hea⟩,?_⟩⟩
            simpa only [hold] using ha

variable {limit : ℕ} {now : ℤ}

lemma Inv.evict (h : Inv c cfg op) (hc : c.Ideal) (limit : ℕ) : Inv c cfg (evict c cfg op limit) := by
  unfold OrphanPool.evict
  split_ifs
  · split
    · exact h
    · exact (h.remove hc _).setOldest none
  · exact h

lemma mem_insert_prevOrphans {orphan : Orphan} {parent : Bytes} :
    o ∈ (insertOrphan c cfg op orphan).prevOrphans parent ↔
      o ∈ op.prevOrphans parent ∨ o = orphan ∧ parent = orphan.block.parentHash := by
  unfold insertOrphan
  by_cases hp : parent = orphan.block.parentHash <;> simp [hp]

lemma Inv.insert (h : Inv c cfg op) (orphan : Orphan) : Inv c cfg (insertOrphan c cfg op orphan) where
  keys := nodup_cons.mpr ⟨by simp,(filter_sublist.map Prod.fst).nodup h.keys⟩
  keyed := forall_mem_cons.mpr ⟨rfl,fun e he => h.keyed e (mem_of_mem_filter he)⟩
  filed parent o ho := by
    rcases mem_insert_prevOrphans.mp ho with ho | ⟨rfl,rfl⟩
    · exact h.filed parent o ho
    · rfl
  indexed e he := by
    rcases mem_cons.mp he with rfl | he
    · exact mem_insert_prevOrphans.mpr (.inr ⟨rfl,rfl⟩)
    · exact mem_insert_prevOrphans.mpr (.inl (h.indexed e (mem_of_mem_filter he)))
  known parent o ho := by
    by_cases hh : o.hash c cfg = orphan.hash c cfg
    · exact ⟨_,mem_cons_self,hh.symm⟩
    · rcases mem_insert_prevOrphans.mp ho with ho | ⟨rfl,-⟩
      · obtain ⟨e,he,hk⟩ := h.known parent o ho
        exact ⟨e,mem_cons_of_mem _ (mem_filter.mpr ⟨he,by simpa [hk] using hh⟩),hk⟩
      · exact absurd rfl hh

lemma Inv.add (h : Inv c cfg op) (hc : c.Ideal) (limit : ℕ) (o : Order) (now : ℤ) (orphan : Orphan) :
    Inv c cfg (addOrphanBlock c cfg op limit o now orphan) :=
  ((h.foldl_visit hc now _).evict hc limit).insert orphan

/-- If the pool is full of orphans that have not expired, the remembered orphan is one of them, or one of them expires
before it. -/
def Fresh (c : Crypto) (cfg : Config) (limit : ℕ) (op : Pool) (now : ℤ) : Prop :=
  limit ≤ (live op now).length → ∀ oldest, op.oldestOrphan = some oldest →
    (∃ e ∈ live op now, e.1 = oldest.hash c cfg) ∨ ∃ e ∈ live op now, e.2.expiration < oldest.expiration

/-- In a full pool the loop ends with an orphan of the pool to remove. -/
theorem Inv.oldest_sweep (h : Inv c cfg op) (hm : 0 < limit) (hfr : Fresh c cfg limit op now)
    (hfu : limit ≤ (live op now).length) (od : Order) :
    ∃ ol, (sweep c cfg op od now).oldestOrphan = some ol ∧ ∃ e ∈ live op now, e.1 = ol.hash c cfg := by
  have hv : ∀ e ∈ live op now, e.2 ∈ od.visit (op.orphans.map Prod.snd) := fun e he =>
    (od.perm _).mem_iff.mpr (mem_map_of_mem (mem_of_mem_filter he))
  rcases oldest_foldl_visit (c:=c) now (od.visit (op.orphans.map Prod.snd)) op with ⟨o,ho,hl,heq⟩ | ⟨heq,ha⟩
  · obtain ⟨e,he,rfl⟩ := mem_map.mp ((od.perm _).mem_iff.mp ho)
    exact ⟨e.2,heq,e,mem_filter.mpr ⟨he,by simpa using hl⟩,(h.keyed e he).symm⟩
  · obtain ⟨e,he⟩ := exists_mem_of_length_pos (hm.trans_le hfu)
    have hl : ∀ e ∈ live op now, ¬e.2.expiration < now := fun e he => by simpa using (mem_filter.mp he).2
    obtain ⟨ol,hold,-⟩ := ha e.2 (hv e he) (hl e he)
    refine ⟨ol,heq.trans hold,?_⟩
    rcases hfr hfu ol hold with hi | ⟨e',he',hea⟩
    · exact hi
    · obtain ⟨ol',hold',hn⟩ := ha e'.2 (hv e' he') (hl e' he')
      rw [hold] at hold'
      exact absurd (Option.some.inj hold' ▸ hea) hn

lemma length_insert_le (orphan : Orphan) : (insertOrphan c cfg op orphan).orphans.length ≤ op.orphans.length+1 :=
  Nat.succ_le_succ (length_filter_le _ _)

lemma Inv.length_add (h : Inv c cfg op) (hm : 0 < limit) (hf : op.orphans.length ≤ limit)
    (hfr : Fresh c cfg limit op now) (o : Order) (orphan : Orphan) :
    (addOrphanBlock c cfg op limit o now orphan).orphans.length ≤ limit := by
  refine (length_insert_le orphan).trans ?_
  have ho := h.orphans_sweep o now
  have hl : (live op now).length ≤ op.orphans.length := length_filter_le _ _
  unfold OrphanPool.evict
  rw [ho]
  split_ifs with hfu
  · obtain ⟨ol,hold,e,he,hk⟩ := h.oldest_sweep hm hfr (by omega) o
    have hlt := length_remove (ho ▸ he) hk
    rw [ho] at hlt
    simp only [hold]
    omega
  · rw [ho]
    omega

variable (a : Orphan → Option String)

section
variable (h : Inv c cfg op) (hc : c.Ideal)
include h hc

lemma Inv.processChildren (hash : Bytes) (co : ℕ) (hashes : List Bytes) :
    Inv c cfg (processChildren c cfg a hash co op hashes).pool ∧
      hashes.length ≤ (processChildren c cfg a hash co op hashes).hashes.length ∧
      (processChildren c cfg a hash co op hashes).pool.orphans.length+
        (processChildren c cfg a hash co op hashes).hashes.length ≤ op.orphans.length+hashes.length := by
  induction co generalizing op hashes with
  | zero => exact ⟨h,le_rfl,le_rfl⟩
  | succ co ih =>
    rw [OrphanPool.processChildren]
    split
    · exact ⟨h,le_rfl,le_rfl⟩
    · rename_i orphan rest hcs
      obtain ⟨e,he,hk⟩ := h.known hash orphan (hcs ▸ mem_cons_self)
      have hlt := length_remove he hk
      split
      · exact ⟨h.remove hc orphan,le_rfl,Nat.add_le_add_right hlt.le _⟩
      · obtain ⟨hi,hg,hl⟩ := ih (h.remove hc orphan) (hashes ++ [orphan.hash c cfg])
        rw [length_append,length_singleton] at hg hl
        exact ⟨hi,(Nat.le_succ _).trans hg,hl.trans (by omega)⟩

/-- As many turns as there are children are enough: no child is left, unless a block is refused. -/
theorem Inv.processChildren_enough {hash : Bytes} {co : ℕ}
    (hct : (op.prevOrphans hash).length ≤ co) (hashes : List Bytes)
    (ho : (OrphanPool.processChildren c cfg a hash co op hashes).err = none) :
    (OrphanPool.processChildren c cfg a hash co op hashes).pool.prevOrphans hash = [] := by
  induction co generalizing op hashes with
  | zero => exact length_eq_zero_iff.mp (Nat.le_zero.mp hct)
  | succ co ih =>
    rw [OrphanPool.processChildren] at ho ⊢
    split at ho
    · rename_i hcs
      exact hcs
    · rename_i orphan rest hcs
      split at ho
      · cases ho
      · refine ih (h.remove hc orphan) ?_ _ ho
        -- the children stand under their parent, so that the first one goes
        have hp : orphan.block.parentHash = hash := h.filed hash orphan (hcs ▸ mem_cons_self)
        have hl := length_filter_le (fun o => decide (o.hash c cfg ≠ orphan.hash c cfg)) rest
        simp only [removeOrphanBlock,hp,update_self,hcs]
        rw [hcs,length_cons] at hct
        rw [filter_cons_of_neg (by simp)]
        omega

lemma Inv.processHashes (f : ℕ) (hashes : List Bytes) : Inv c cfg (processHashes c cfg a f op hashes).pool ∧
      (processHashes c cfg a f op hashes).pool.orphans.length ≤ op.orphans.length := by
  induction f generalizing op hashes with
  | zero => cases hashes <;> exact ⟨h,le_rfl⟩
  | succ f ih =>
    cases hashes with
    | nil => exact ⟨h,le_rfl⟩
    | cons hash hashes =>
      obtain ⟨hi,hg,hl⟩ := h.processChildren a hc hash (op.prevOrphans hash).length hashes
      rw [OrphanPool.processHashes]
      split_ifs
      · exact ⟨hi,by omega⟩
      · obtain ⟨hi',hl'⟩ := ih hi _
        exact ⟨hi',hl'.trans (by omega)⟩

/-- More turns than there are hashes and orphans change nothing. -/
theorem Inv.processHashes_enough {f : ℕ} {hashes : List Bytes}
    (hfe : op.orphans.length+hashes.length ≤ f) (more : ℕ) :
    OrphanPool.processHashes c cfg a (f+more) op hashes = OrphanPool.processHashes c cfg a f op hashes := by
  induction f generalizing op hashes with
  | zero =>
    obtain rfl := length_eq_zero_iff.mp (by omega : hashes.length = 0)
    cases more <;> rfl
  | succ f ih =>
    cases hashes with
    | nil => rw [Nat.succ_add,OrphanPool.processHashes,OrphanPool.processHashes]
    | cons hash hashes =>
      obtain ⟨hi,-,hl⟩ := h.processChildren a hc hash (op.prevOrphans hash).length hashes
      rw [length_cons] at hfe
      rw [Nat.succ_add,OrphanPool.processHashes,OrphanPool.processHashes]
      rw [ih hi (by omega)]

end

/-- The pool is within its limit, and both maps have the same blocks. -/
structure Sound (c : Crypto) (cfg : Config) (limit : ℕ) (op : Pool) : Prop where
  few : op.orphans.length ≤ limit
  same : ∀ hash, isKnownOrphan op hash = true ↔ ∃ parent, ∃ o ∈ op.prevOrphans parent, o.hash c cfg = hash
  indexed : ∀ e ∈ op.orphans, e.2 ∈ op.prevOrphans e.2.block.parentHash

lemma Inv.sound (h : Inv c cfg op) (hf : op.orphans.length ≤ limit) :
    Sound c cfg limit op := by
  refine ⟨hf,fun hash => ?_,h.indexed⟩
  simp only [isKnownOrphan,any_eq_true,decide_eq_true_eq]
  constructor
  · rintro ⟨e,he,rfl⟩
    exact ⟨_,e.2,h.indexed e he,h.keyed e he⟩
  · rintro ⟨p,o,ho,rfl⟩
    exact h.known p o ho

/-- An addition finds the remembered orphan fresh. -/
def StepFresh (c : Crypto) (cfg : Config) (limit : ℕ) (op : Pool) : Op → Prop
  | .add _ now _ => Fresh c cfg limit op now
  | _ => True

def RunFresh (c : Crypto) (cfg : Config) (limit : ℕ) (op : Pool) : List Op → Prop
  | [] => True
  | o :: ops => StepFresh c cfg limit op o ∧ RunFresh c cfg limit (step c cfg limit op o) ops

lemma Inv.step (h : Inv c cfg op) (hc : c.Ideal) (o : Op) : Inv c cfg (step c cfg limit op o) := by
  cases o with
  | add od now orphan => exact h.add hc limit od now orphan
  | remove orphan => exact h.remove hc orphan
  | removeByHash hash => exact h.removeByHash hc hash
  | process accept hash => exact (h.processHashes accept hc _ _).1

section
variable (h : Inv c cfg op) (hc : c.Ideal) (hm : 0 < limit) (hf : op.orphans.length ≤ limit)
include h hc hm hf

lemma Inv.length_step {o : Op} (hfr : StepFresh c cfg limit op o) :
    (OrphanPool.step c cfg limit op o).orphans.length ≤ limit := by
  cases o with
  | add od now orphan => exact h.length_add hm hf hfr od orphan
  | remove orphan => exact (length_remove_le orphan).trans hf
  | removeByHash hash =>
    refine le_trans ?_ hf
    simp only [OrphanPool.step,removeOrphanBlockByHash]
    split
    · exact length_remove_le _
    · exact le_rfl
  | process accept hash => exact (h.processHashes accept hc _ _).2.trans hf

lemma Inv.run {ops : List Op} (hfr : RunFresh c cfg limit op ops) :
    Sound c cfg limit (run c cfg limit op ops) := by
  induction ops generalizing op with
  | nil => exact h.sound hf
  | cons o ops ih => exact ih (h.step hc o) (h.length_step hc hm hf hfr.1) hfr.2

end

/-- As long as the remembered orphan is fresh, the pool stays within its limit and its maps agree. -/
theorem run_sound (hc : c.Ideal) (hm : 0 < limit) {ops : List Op}
    (hfr : RunFresh c cfg limit newOrphanPool ops) :
    Sound c cfg limit (run c cfg limit newOrphanPool ops) :=
  (inv_newOrphanPool c cfg).run hc hm (Nat.zero_le _) hfr

end

/-- An orphan for a number, later ones expire later. -/
def numbered (i : ℕ) : Orphan := ⟨⟨0,[],[],[],i,0,0,[],0,none,[]⟩,i,false,"",0⟩

def asIs : Order := ⟨id,fun l => .refl l⟩

def addNumbered (i : ℕ) : Op := .add asIs 0 (numbered i)

variable {j k : ℕ} {op : Pool} {max : ℕ}

lemma numbered_hash_inj {i : ℕ} (h : (numbered i).hash framed .allForks = (numbered j).hash framed .allForks) :
    i = j :=
  Nat.cast_injective (Block.hash_inj framed_ideal h).1

/-- The remembered orphan was removed, and all others expire after it. -/
structure Stale (k : ℕ) (op : Pool) : Prop where
  length : op.orphans.length = k
  later : ∀ e ∈ op.orphans, ∃ i, 1 ≤ i ∧ i ≤ k ∧ e = ((numbered i).hash framed .allForks,numbered i)
  oldest : op.oldestOrphan = some (numbered 0)

lemma Stale.sweep (h : Stale k op) : sweep framed .allForks op asIs 0 = op := by
  have hv : ∀ o ∈ op.orphans.map Prod.snd, visitOrphan framed .allForks op 0 o = op := by
    intro o ho
    obtain ⟨e,he,rfl⟩ := mem_map.mp ho
    obtain ⟨i,-,-,rfl⟩ := h.later e he
    have hep : ¬(numbered i).expiration < 0 := not_lt.mpr (Int.natCast_nonneg i)
    simp only [visitOrphan,h.oldest,if_neg hep]
    exact if_neg hep
  exact foldlRecOn (motive := (· = op)) (op.orphans.map Prod.snd) _ rfl fun b hb o ho => by rw [hb,hv o ho]

lemma Stale.filter (h : Stale k op) (hj : j = 0 ∨ k < j) :
    (op.orphans.filter fun e => e.1 ≠ (numbered j).hash framed .allForks) = op.orphans := by
  refine filter_eq_self.mpr fun e he => ?_
  obtain ⟨i,hi,hik,rfl⟩ := h.later e he
  have hne : i ≠ j := by omega
  simpa using fun heq => hne (numbered_hash_inj heq)

lemma Stale.add (h : Stale k op) (hk : k < max) :
    Stale (k+1) (step framed .allForks max op (addNumbered (k+1))) := by
  have hfu : ¬max < op.orphans.length+1 := by rw [h.length]; omega
  simp only [step,addNumbered,addOrphanBlock,h.sweep,evict,if_neg hfu]
  refine ⟨?_,fun e he => ?_,h.oldest⟩
  · simp only [insertOrphan,length_cons]
    rw [h.filter (.inr (Nat.lt_succ_self k)),h.length]
  · simp only [insertOrphan] at he
    rcases mem_cons.mp he with rfl | he
    · exact ⟨k+1,by omega,le_rfl,rfl⟩
    · obtain ⟨i,hi,hik,rfl⟩ := h.later e (mem_of_mem_filter he)
      exact ⟨i,hi,by omega,rfl⟩

/-- In a full pool the stale orphan makes no room. -/
theorem Stale.length_add (h : Stale max op) :
    (step framed .allForks max op (addNumbered (max+1))).orphans.length = max+1 := by
  have hfu : max < op.orphans.length+1 := by rw [h.length]; omega
  simp only [step,addNumbered,addOrphanBlock,h.sweep,evict,if_pos hfu,h.oldest,insertOrphan,removeOrphanBlock,
    length_cons]
  rw [h.filter (.inl rfl),h.filter (.inr (Nat.lt_succ_self max)),h.length]

lemma stale_run {n : ℕ} (hm : 2 ≤ max) (hn : n < max) :
    Stale (n+1) (run framed .allForks max newOrphanPool
      ([addNumbered 0,addNumbered 1,.remove (numbered 0)] ++ (range n).map fun i => addNumbered (i+2))) := by
  induction n with
  | zero =>
    have hne : (numbered 0).hash framed .allForks ≠ (numbered 1).hash framed .allForks :=
      fun heq => absurd (numbered_hash_inj heq) (by decide)
    have ho : ¬max < 0+1 := by omega
    have ht : ¬max < 1+1 := by omega
    have hz : ¬(numbered 0).expiration < 0 := by decide
    generalize hop : run framed .allForks max newOrphanPool _ = op
    obtain ⟨hos,hol⟩ : op.orphans = [((numbered 1).hash framed .allForks,numbered 1)] ∧ op.oldestOrphan = some (numbered 0) := by
      simp [← hop,run,step,addNumbered,addOrphanBlock,sweep,asIs,newOrphanPool,visitOrphan,evict,insertOrphan,removeOrphanBlock,
        hne,hne.symm,ho,ht,hz]
    refine ⟨by rw [hos]; rfl,fun e he => ⟨1,le_rfl,le_rfl,?_⟩,hol⟩
    rw [hos] at he
    exact mem_singleton.mp he
  | succ n ih =>
    rw [range_succ,map_append,← append_assoc,run,foldl_append]
    exact (ih (by omega)).add hn

lemma exceeds (hm : 2 ≤ max) :
    ∃ ops, (run framed .allForks max newOrphanPool ops).orphans.length = max+1 := by
  obtain ⟨n,rfl⟩ : ∃ n, max = n+1 := ⟨max-1,by omega⟩
  refine ⟨([addNumbered 0,addNumbered 1,.remove (numbered 0)] ++ (range n).map fun i => addNumbered (i+2)) ++
    [addNumbered (n+2)],?_⟩
  rw [run,foldl_append]
  exact (stale_run hm (Nat.lt_succ_self n)).length_add

/-- The limit of the source is exceeded. -/
theorem run_exceeds : ∃ ops, 10240 < (run framed .allForks 10240 newOrphanPool ops).orphans.length := by
  obtain ⟨ops,hlength⟩ := exceeds (by norm_num : 2 ≤ 10240)
  exact ⟨ops,hlength ▸ Nat.lt_succ_self _⟩

/-- A block that is remembered and still there is removed from the full pool. -/
theorem run_sound_full :
    Sound framed .allForks 2 (run framed .allForks 2 newOrphanPool [addNumbered 0,addNumbered 1,addNumbered 2]) := by
  refine run_sound framed_ideal (by decide) ⟨fun hfu => ?_,fun hfu => ?_,fun _ oldest hold => ?_,trivial⟩
  · exact absurd hfu (by decide +kernel)
  · exact absurd hfu (by decide +kernel)
  · have hz : (step framed .allForks 2 (step framed .allForks 2 newOrphanPool (addNumbered 0))
        (addNumbered 1)).oldestOrphan = some (numbered 0) := by decide +kernel
    cases hz.symm.trans hold
    exact .inl (by decide +kernel)

/-! ### What is passed on -/

section
variable {c : Crypto} {cfg : Config} {accept : Orphan → Option String} {op op' op'' : Pool} {gone gone' hashes : List Bytes}
variable {l : List Orphan} {hash : Bytes}

/-- The blocks of some hashes are gone from both maps, and nothing else is. -/
structure Removed (c : Crypto) (cfg : Config) (op op' : Pool) (gone : List Bytes) : Prop where
  orphans : ∀ e, e ∈ op'.orphans ↔ e ∈ op.orphans ∧ e.1 ∉ gone
  children : ∀ parent o, o ∈ op'.prevOrphans parent ↔ o ∈ op.prevOrphans parent ∧ o.hash c cfg ∉ gone

lemma Removed.trans (h : Removed c cfg op op' gone) (h' : Removed c cfg op' op'' gone') :
    Removed c cfg op op'' (gone ++ gone') where
  orphans e := by rw [h'.orphans,h.orphans,and_assoc,mem_append,not_or]
  children parent o := by rw [h'.children,h.children,and_assoc,mem_append,not_or]

lemma processChildren_spec {co : ℕ} {p : Pass} (h : Inv c cfg op) (hc : c.Ideal)
    (hp : processChildren c cfg accept hash co op hashes = p) (he : p.err = none) :
    p.hashes = hashes ++ p.calls.map (Orphan.hash c cfg) ∧ Removed c cfg op p.pool (p.calls.map (Orphan.hash c cfg)) ∧
      (p.calls.map (Orphan.hash c cfg)).Nodup ∧ ∀ o ∈ p.calls, o ∈ op.prevOrphans hash := by
  have hn : ∀ op, Removed c cfg op op [] := fun op => ⟨fun e => by simp,fun p o => by simp⟩
  induction co generalizing op hashes p with
  | zero =>
    subst hp
    exact ⟨(append_nil _).symm,hn op,nodup_nil,by simp [processChildren]⟩
  | succ co ih =>
    rw [processChildren] at hp
    split at hp
    · subst hp
      exact ⟨(append_nil _).symm,hn op,nodup_nil,by simp⟩
    · rename_i orphan rest hch
      dsimp only at hp
      split at hp <;> subst hp
      · cases he
      · have hon : Removed c cfg op (removeOrphanBlock c cfg op orphan) [orphan.hash c cfg] :=
          ⟨fun e => by simp [mem_remove_orphans],fun p o => by simp [mem_remove_prevOrphans hc h]⟩
        obtain ⟨hh,hr,hnd,hs⟩ := ih (h.remove hc orphan) rfl he
        have hs' := fun o ho => (hon.children hash o).mp (hs o ho)
        refine ⟨by simp [Pass.after,hh],hon.trans hr,nodup_cons.mpr ⟨fun hmm => ?_,hnd⟩,?_⟩
        · obtain ⟨o,ho,he⟩ := mem_map.mp hmm
          exact (hs' o ho).2 (mem_singleton.mpr he)
        · exact forall_mem_cons.mpr ⟨hch ▸ mem_cons_self,fun o ho => (hs' o ho).1⟩

/-- A block of the second hash waits for the first one. -/
def Waits (c : Crypto) (cfg : Config) (op : Pool) (parent hash : Bytes) : Prop :=
  ∃ o ∈ op.prevOrphans parent, o.hash c cfg = hash

lemma Removed.waits (h : Removed c cfg op op' gone) {a b : Bytes} :
    Waits c cfg op' a b ↔ Waits c cfg op a b ∧ b ∉ gone := by
  simp only [Waits,h.children]
  constructor
  · rintro ⟨o,⟨ho,hn⟩,rfl⟩
    exact ⟨⟨o,ho,rfl⟩,hn⟩
  · rintro ⟨⟨o,ho,rfl⟩,hn⟩
    exact ⟨o,⟨ho,hn⟩,rfl⟩

/-- The blocks passed for some hashes: none twice, those that wait for one of the hashes directly or through
others, each after the block it waits for. -/
structure Handles (c : Crypto) (cfg : Config) (op op' : Pool) (hashes : List Bytes) (l : List Orphan) : Prop where
  nodup : (l.map (Orphan.hash c cfg)).Nodup
  removed : Removed c cfg op op' (l.map (Orphan.hash c cfg))
  descends : ∀ x ∈ l.map (Orphan.hash c cfg), ∃ hash ∈ hashes, Relation.TransGen (Waits c cfg op) hash x
  closed : ∀ x ∈ hashes ++ l.map (Orphan.hash c cfg), ∀ y, Waits c cfg op x y → y ∈ l.map (Orphan.hash c cfg)
  ordered : ∀ pre o post, l = pre ++ o :: post → o.block.parentHash ∈ hashes ++ pre.map (Orphan.hash c cfg)

lemma Handles.nil (op : Pool) : Handles c cfg op op [] [] :=
  ⟨nodup_nil,⟨by simp,by simp⟩,by simp,by simp,by simp⟩

/-- All blocks that wait for the first hash, and then what waits for the other hashes and for them. -/
theorem Handles.cons (h : Inv c cfg op) {l' : List Orphan}
    (hre : Removed c cfg op op' (l.map (Orphan.hash c cfg))) (hn : (l.map (Orphan.hash c cfg)).Nodup)
    (hs : ∀ o ∈ l, o ∈ op.prevOrphans hash) (hnn : op'.prevOrphans hash = [])
    (hr : Handles c cfg op' op'' (hashes ++ l.map (Orphan.hash c cfg)) l') :
    Handles c cfg op op'' (hash :: hashes) (l ++ l') := by
  have hmo : ∀ {a b}, Relation.TransGen (Waits c cfg op') a b → Relation.TransGen (Waits c cfg op) a b :=
    fun hab => hab.lift id fun a b hw => (hre.waits.mp hw).1
  have hd : ∀ x ∈ l.map (Orphan.hash c cfg), Waits c cfg op hash x := fun x hx => by
    obtain ⟨o,ho,rfl⟩ := mem_map.mp hx
    exact ⟨o,hs o ho,rfl⟩
  have hst : ∀ x y, Waits c cfg op x y → x ∈ hashes ++ l.map (Orphan.hash c cfg) ++ l'.map (Orphan.hash c cfg) →
      y ∈ l.map (Orphan.hash c cfg) ++ l'.map (Orphan.hash c cfg) := fun x y hw hx => by
    by_cases hy : y ∈ l.map (Orphan.hash c cfg)
    · exact mem_append_left _ hy
    · exact mem_append_right _ (hr.closed x hx y (hre.waits.mpr ⟨hw,hy⟩))
  refine ⟨?_,map_append ▸ hre.trans hr.removed,fun x hx => ?_,fun x hx y hw => ?_,fun pre o p he => ?_⟩
  · rw [map_append]
    refine hn.append hr.nodup fun x hx hx' => ?_
    -- what is passed later still waits in the smaller pool
    obtain ⟨a,-,hax⟩ := hr.descends x hx'
    obtain ⟨b,-,hb⟩ := Relation.TransGen.tail'_iff.mp hax
    exact (hre.waits.mp hb).2 hx
  · rw [map_append] at hx
    rcases mem_append.mp hx with hx | hx
    · exact ⟨hash,mem_cons_self,.single (hd x hx)⟩
    · obtain ⟨a,ha,hax⟩ := hr.descends x hx
      rcases mem_append.mp ha with ha | ha
      · exact ⟨a,mem_cons_of_mem _ ha,hmo hax⟩
      · exact ⟨hash,mem_cons_self,.head (hd a ha) (hmo hax)⟩
  · rw [map_append] at hx ⊢
    rcases mem_cons.mp hx with rfl | hx
    · refine mem_append_left _ (by_contra fun hy => ?_)
      obtain ⟨o,ho,-⟩ := hre.waits.mpr ⟨hw,hy⟩
      rw [hnn] at ho
      cases ho
    · exact hst x y hw (by rwa [append_assoc])
  · rcases append_eq_append_iff.mp he with ⟨m,rfl,hm⟩ | ⟨m,rfl,hm⟩
    · have ho := hr.ordered m o p hm
      simp only [map_append,cons_append,mem_cons,mem_append] at ho ⊢
      tauto
    · cases m with
      | nil =>
        have ho := hr.ordered [] o p (by simpa using hm.symm)
        simp only [map_nil,append_nil,cons_append,mem_cons,mem_append] at ho ⊢
        tauto
      | cons o' m =>
        cases hm
        exact mem_append_left _ (by simp [h.filed hash o (hs o (by simp))])

lemma processHashes_handles (hc : c.Ideal) {f : ℕ} (h : Inv c cfg op)
    (hfe : op.orphans.length+hashes.length ≤ f) (he : (processHashes c cfg accept f op hashes).err = none) :
    Handles c cfg op (processHashes c cfg accept f op hashes).pool hashes (processHashes c cfg accept f op hashes).calls := by
  induction f generalizing op hashes with
  | zero =>
    obtain rfl := length_eq_zero_iff.mp (by omega : hashes.length = 0)
    exact .nil op
  | succ f ih =>
    cases hashes with
    | nil => exact .nil op
    | cons hash hashes =>
      obtain ⟨hi,-,hl⟩ := h.processChildren accept hc hash (op.prevOrphans hash).length hashes
      rw [processHashes] at he ⊢
      split_ifs at he ⊢ with herr
      · rw [he] at herr
        cases herr
      · have herr := Option.not_isSome_iff_eq_none.mp herr
        obtain ⟨hh,hr,hnd,hs⟩ := processChildren_spec h hc rfl herr
        rw [length_cons] at hfe
        exact .cons h hr hnd hs (h.processChildren_enough accept hc le_rfl hashes herr) (hh ▸ ih hi (by omega) he)

lemma Inv.after (h : Inv c cfg op) (hc : c.Ideal) (limit : ℕ) (ops : List Op) :
    Inv c cfg (OrphanPool.run c cfg limit op ops) :=
  foldlRecOn ops _ h fun _ h o _ => h.step hc o

/-- In every pool that comes about, the turns that `ProcessOrphans` is given are enough, and if it returns no
error it has passed each block that waits for the hash once, after its parent, and these are what it removed. -/
theorem processOrphans_handles (hc : c.Ideal) (limit : ℕ) (ops : List Op) (accept : Orphan → Option String) (hash : Bytes)
    (ho : op = run c cfg limit newOrphanPool ops) {p : Pass} (hp : processOrphans c cfg op accept hash = p) :
    (∀ more, processHashes c cfg accept (op.orphans.length+1+more) op [hash] = p) ∧
    (p.err = none → Handles c cfg op p.pool [hash] p.calls ∧
      ∀ x, x ∈ p.calls.map (Orphan.hash c cfg) ↔ Relation.TransGen (Waits c cfg op) hash x) := by
  have h : Inv c cfg op := ho ▸ (inv_newOrphanPool c cfg).after hc limit ops
  subst hp
  refine ⟨h.processHashes_enough accept hc le_rfl,fun he => ?_⟩
  have hh := processHashes_handles hc h (Nat.le_refl (op.orphans.length+1)) he
  refine ⟨hh,fun x => ⟨fun hx => ?_,fun hx => ?_⟩⟩
  · obtain ⟨a,ha,hax⟩ := hh.descends x hx
    rwa [mem_singleton.mp ha] at hax
  · induction hx with
    | single hw => exact hh.closed _ mem_cons_self _ hw
    | tail _ hw ih => exact hh.closed _ (mem_append_right _ ih) _ hw

def grandchild : Orphan := ⟨⟨0,(numbered 0).hash framed .allForks,[],[],0,0,0,[],0,none,[]⟩,0,false,"",0⟩

/-- Two blocks that wait for the same parent, and one that waits for the first of them. -/
theorem processOrphans_handles_grandchild : ∃ op p,
    op = run framed .allForks 5 newOrphanPool [.add asIs 0 grandchild,addNumbered 0,addNumbered 1] ∧
    processOrphans framed .allForks op (fun _ => none) [] = p ∧ p.err = none ∧
    p.calls = [numbered 0,numbered 1,grandchild] ∧ p.pool.orphans = [] ∧
    Handles framed .allForks op p.pool [[]] p.calls :=
  ⟨_,_,rfl,rfl,by decide +kernel,by decide +kernel,by decide +kernel,
    ((processOrphans_handles framed_ideal 5 _ (fun _ => none) [] rfl rfl).2 (by decide +kernel)).1⟩

end
end Dpos.OrphanPool
