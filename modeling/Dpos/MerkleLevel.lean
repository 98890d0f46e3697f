import Dpos.Merkle
import Mathlib.Data.Nat.Log

/-! The levels of a merkle root. A pass over a list acts on blocks of a power of
two alone, so the roots of the chunks that the goroutines hash are the digests of
one level of the sequential loop. A pass also loses nothing when no two pairs
collide. -/
namespace Dpos.Merkle

open List Nat

section
variable {D : Type} (pair : D → D → D) {l : List D}

lemma pairUp_append (h : l.length%2 = 0) (r : List D) :
    pairUp pair (l ++ r) = pairUp pair l ++ pairUp pair r := by
  induction l using pairUp.induct with
  | case1 a b l ih =>
    have heven : l.length%2 = 0 := by
      simp only [length_cons] at h
      omega
    simp [pairUp,ih heven]
  | case2 a => simp at h
  | case3 => simp [pairUp]

variable (ncpu level s : ℕ)

lemma iterate_pairUp_append (h : 2^s ∣ l.length) (r : List D) :
    (pairUp pair)^[s] (l ++ r) = (pairUp pair)^[s] l ++ (pairUp pair)^[s] r := by
  induction s generalizing l r with
  | zero => rfl
  | succ s ih =>
    obtain ⟨q,hq⟩ := h
    have hl : l.length = 2*(2^s*q) := by rw [hq,pow_succ]; ring
    simp only [Function.iterate_succ_apply]
    rw [pairUp_append pair (by omega),ih]
    exact ⟨q,by rw [pairUp_length]; omega⟩

lemma iterate_pairUp_singleton (a : D) : (pairUp pair)^[s] [a] = [(fun r => pair r r)^[s] a] := by
  induction s generalizing a with
  | zero => rfl
  | succ s ih => exact ih (pair a a)

variable {hashes xs ys c : List D} {f data : ℕ} {α : Type}

/-- The sequential root is the single digest of the level at which the list has shrunk to
one. -/
theorem rootLoop_eq (hne : hashes ≠ []) (hf : hashes.length ≤ f+1) :
    ∃ r, rootLoop pair f hashes = some r ∧ (pairUp pair)^[Nat.clog 2 hashes.length] hashes = [r] := by
  induction f generalizing hashes with
  | zero =>
    obtain ⟨a,rfl⟩ := length_eq_one_iff.mp
      (by have := length_pos_iff.mpr hne; omega : hashes.length = 1)
    exact ⟨a,rfl,by simp⟩
  | succ f ih =>
    match hashes with
    | [a] => exact ⟨a,rfl,by simp⟩
    | a :: b :: hashes =>
      have hl : (pairUp pair (a :: b :: hashes)).length = _ := pairUp_length _
      have hs : (pairUp pair (a :: b :: hashes)).length ≤ f+1 := by
        omega
      obtain ⟨r,hr,hlv⟩ := ih (by simp [pairUp]) hs
      refine ⟨r,hr,?_⟩
      rw [clog_of_two_le (by norm_num) (by simp),Function.iterate_succ_apply]
      rw [hl] at hlv
      exact hlv

lemma getMerkleRootSeq_eq (hne : hashes ≠ []) : ∃ r, getMerkleRootSeq pair hashes = some r ∧
      (pairUp pair)^[Nat.clog 2 hashes.length] hashes = [r] :=
  rootLoop_eq pair hne (by omega)

lemma getMerkleRootSeq_pairUp (h : 2 ≤ hashes.length) :
    getMerkleRootSeq pair (pairUp pair hashes) = getMerkleRootSeq pair hashes := by
  have hl : (pairUp pair hashes).length = _ := pairUp_length hashes
  obtain ⟨r,hr,hlv⟩ := getMerkleRootSeq_eq pair
    (ne_nil_of_length_pos (by omega : 0 < hashes.length))
  obtain ⟨r',hr',hlv'⟩ := getMerkleRootSeq_eq pair
    (ne_nil_of_length_pos (by omega : 0 < (pairUp pair hashes).length))
  rw [clog_of_two_le (by norm_num) h,Function.iterate_succ_apply] at hlv
  rw [hl,show hashes.length+1 = hashes.length+2-1 from rfl,hlv] at hlv'
  rw [hr,hr',singleton_inj.mp hlv']

lemma getMerkleRootSeq_iterate (h : 2^s < hashes.length) :
    getMerkleRootSeq pair ((pairUp pair)^[s] hashes) = getMerkleRootSeq pair hashes := by
  induction s generalizing hashes with
  | zero => rfl
  | succ s ih =>
    have hp := Nat.two_pow_pos s
    have hh : 2^s < (pairUp pair hashes).length := by
      rw [pairUp_length]
      rw [pow_succ] at h
      omega
    rw [Function.iterate_succ_apply,ih hh,getMerkleRootSeq_pairUp pair (by rw [pow_succ] at h; omega)]

lemma log2Loop_eq (h : data ≤ f) (ht : 2 ≤ data) :
    log2Loop f data level+1 = level+Nat.log 2 data := by
  induction f generalizing data level with
  | zero => omega
  | succ f ih =>
    rw [log2Loop,log_of_one_lt_of_le (by norm_num) ht]
    split_ifs with hs
    · have ho : data/2 = 1 := by omega
      simp [ho]
    · rw [ih (level+1) (by omega) (by omega)]
      omega

lemma log2_eq (h : 2 ≤ data) : log2 data = Nat.log 2 data := by
  have := log2Loop_eq 1 le_rfl h
  rw [log2,if_neg (by omega)]
  omega

lemma log2_le_one {d : ℕ} (h : d < 2) : log2 d ≤ 1 := by
  match d with
  | 0 => exact zero_le 1
  | 1 => exact le_rfl

lemma calcLevelLoop_eq {n : ℕ} (h : n ≤ f) : calcLevelLoop f n level = level+Nat.clog 2 n := by
  induction f generalizing n level with
  | zero => simp [calcLevelLoop,show n = 0 by omega]
  | succ f ih =>
    rw [calcLevelLoop]
    split_ifs with hs
    · rw [clog_of_right_le_one hs,add_zero]
    · have hh : (n+n%2)/2 = (n+2-1)/2 := by omega
      have hc : Nat.clog 2 n = Nat.clog 2 ((n+2-1)/2)+1 := clog_of_two_le (by norm_num) (by omega)
      rw [hh,ih (level+1) (by omega),hc]
      omega

lemma calcLevel_eq {n : ℕ} (h : n ≠ 1) : calcLevel n = Nat.clog 2 n := by
  rw [calcLevel,if_neg h,calcLevelLoop_eq 0 le_rfl,zero_add]

lemma getMerkleRootPad_eq {s : ℕ} (hs : 1 ≤ s) (hne : c ≠ []) (hl : c.length ≤ 2^s) :
    ∃ ro, getMerkleRootPad pair c (2^s) = some ro ∧ (pairUp pair)^[s] c = [ro] := by
  have hlo : log2 (2^s) = s := by rw [log2_eq (le_self_pow (by omega) 2),log_pow (by norm_num)]
  match c with
  | [a] =>
    -- a chunk of one digest has level one: its first doubling is done by hand
    obtain ⟨t,rfl⟩ : ∃ t, s = t+1 := ⟨s-1,by omega⟩
    refine ⟨(fun r => pair r r)^[t] (pair a a),?_,iterate_pairUp_singleton pair (t+1) a⟩
    simp [getMerkleRootPad,hlo,calcLevel]
  | a :: b :: rest =>
    obtain ⟨ro,hr,hlv⟩ := getMerkleRootSeq_eq pair hne
    have hle : Nat.clog 2 (a :: b :: rest).length ≤ s := clog_le_of_le_pow hl
    have hc : calcLevel (a :: b :: rest).length = Nat.clog 2 (a :: b :: rest).length :=
      calcLevel_eq (by simp)
    refine ⟨(fun r => pair r r)^[s-Nat.clog 2 (a :: b :: rest).length] ro,?_,?_⟩
    · simp only [getMerkleRootPad,hr,hlo,hc]
      rfl
    · rw [← Nat.sub_add_cancel hle,Function.iterate_add_apply,hlv,iterate_pairUp_singleton,
        Nat.sub_add_cancel hle]

lemma chunkRoot_eq {s : ℕ} (hs : 1 ≤ s) (hne : c ≠ []) (hl : c.length ≤ 2^s) :
    ∃ r, chunkRoot pair (2^s) c = some r ∧ (pairUp pair)^[s] c = [r] := by
  unfold chunkRoot
  split_ifs with hf
  · exact getMerkleRootPad_eq pair hs hne hl
  · obtain ⟨r,hr,hlv⟩ := getMerkleRootSeq_eq pair hne
    rw [not_not.mp hf,clog_pow 2 s (by norm_num)] at hlv
    exact ⟨r,hr,hlv⟩

lemma chunks_succ (step c : ℕ) (l : List α) :
    chunks step (c+1) l = l.take step :: chunks step c (l.drop step) := by
  simp only [chunks,range_succ_eq_map,map_cons,map_map,zero_mul,drop_zero]
  congr 1
  apply map_congr_left
  intro i _
  simp [drop_drop,succ_mul,add_comm]

lemma mapM_chunkRoot {s : ℕ} (hs : 1 ≤ s) (c : ℕ) (hlt : c*2^s < hashes.length)
    (hle : hashes.length ≤ (c+1)*2^s) : (chunks (2^s) (c+1) hashes).mapM (chunkRoot pair (2^s)) =
      some ((pairUp pair)^[s] hashes) := by
  induction c generalizing hashes with
  | zero =>
    have hsh : hashes.length ≤ 2^s := by simpa using hle
    obtain ⟨r,hro,hl⟩ := chunkRoot_eq pair hs
      (ne_nil_of_length_pos (by omega)) hsh
    rw [chunks_succ,take_of_length_le hsh]
    simp [chunks,hro,hl]
  | succ c ih =>
    have hm : (c+1)*2^s = c*2^s+2^s := succ_mul _ _
    have hm' : (c+1+1)*2^s = c*2^s+2^s+2^s := by rw [succ_mul,hm]
    have ht : (hashes.take (2^s)).length = 2^s := by simp; omega
    have hd : (hashes.drop (2^s)).length = hashes.length-2^s := length_drop
    obtain ⟨r,hro,hl⟩ := chunkRoot_eq pair hs
      (ne_nil_of_length_pos (by rw [ht]; exact Nat.two_pow_pos s)) ht.le
    have hr := @ih (hashes.drop (2^s)) (by omega) (by omega)
    have hsp := iterate_pairUp_append pair s (Dvd.intro_left 1 (by rw [ht,one_mul]))
      (hashes.drop (2^s))
    rw [take_append_drop,hl] at hsp
    rw [chunks_succ,hsp]
    simp [hro,hr]

lemma chunkStep_eq (n : ℕ) : ∃ s, 1 ≤ s ∧ chunkStep ncpu n = 2^s := by
  rcases le_total (2^max (log2 (n/ncpu)) 1) 256 with h | h
  · exact ⟨_,le_max_right _ _,min_eq_left h⟩
  · exact ⟨8,by norm_num,min_eq_right h⟩

lemma chunkStep_le {ncpu n : ℕ} (hc : 2 ≤ ncpu) (hn : 4 ≤ n) : 2*chunkStep ncpu n ≤ n := by
  have hp : 2^max (log2 (n/ncpu)) 1 ≤ n/2 := by
    by_cases hq : n/ncpu < 2
    · rw [max_eq_right (log2_le_one hq)]
      omega
    · have hl : 1 ≤ Nat.log 2 (n/ncpu) := log_pos (by norm_num) (by omega)
      rw [log2_eq (by omega),max_eq_left hl]
      exact (pow_log_le_self 2 (by omega)).trans (div_le_div_left hc (by norm_num))
  have hm : chunkStep ncpu n ≤ 2^max (log2 (n/ncpu)) 1 := min_le_left _ _
  omega

lemma chunkCount_eq {s n : ℕ} (hn : 0 < n) : ∃ c, chunkCount (2^s) n = c+1 ∧ c*2^s < n ∧ n ≤ (c+1)*2^s := by
  have hs := Nat.two_pow_pos s
  have hg := chunkCount_mul_ge hs n
  obtain ⟨c,hc⟩ : ∃ c, chunkCount (2^s) n = c+1 := by
    refine ⟨chunkCount (2^s) n-1,?_⟩
    have hp : chunkCount (2^s) n ≠ 0 := by
      intro h
      rw [h] at hg
      omega
    omega
  refine ⟨c,hc,mul_lt_of_lt_chunkCount hs (by omega),?_⟩
  rwa [hc] at hg

lemma exists_getMerkleRoot (hne : hashes ≠ []) :
    ∃ root, getMerkleRootSeq pair hashes = some root ∧ getMerkleRoot pair ncpu hashes = some root := by
  obtain ⟨root,hr,_⟩ := getMerkleRootSeq_eq pair hne
  refine ⟨root,hr,?_⟩
  unfold getMerkleRoot
  split_ifs with h
  · exact hr
  · obtain ⟨s,hs,hst⟩ := chunkStep_eq ncpu hashes.length
    have hl := @chunkStep_le ncpu hashes.length (by omega) (by omega)
    obtain ⟨c,hc,hlt,hg⟩ := @chunkCount_eq s hashes.length (by omega)
    rw [hst] at hl ⊢
    simp only [hc,mapM_chunkRoot pair hs c hlt hg,Option.bind_eq_bind,Option.bind_some]
    exact (getMerkleRootSeq_iterate pair s (by omega)).trans hr

/-- However many processors there are, the goroutines only share out the work of the
sequential loop. A chunk that is not the last one has even length in every pass, so that
no goroutine appends into the chunk of another. -/
theorem getMerkleRoot_eq_sequential (ncpu : ℕ) (hashes : List D) :
    getMerkleRoot pair ncpu hashes = getMerkleRootSeq pair hashes := by
  by_cases hne : hashes = []
  · rw [getMerkleRoot,if_pos (.inl (by simp [hne]))]
  · obtain ⟨root,hs,hr⟩ := exists_getMerkleRoot pair ncpu hne
    rw [hs,hr]

def passPairs : List D → List (D × D)
  | a :: b :: hashes => (a,b) :: passPairs hashes
  | [a] => [(a,a)]
  | [] => []

def loopPairs : ℕ → List D → List (D × D)
  | _,[] => []
  | _,[_] => []
  | 0,_ => []
  | fuel+1,hashes => passPairs hashes ++ loopPairs fuel (pairUp pair hashes)

def hashedPairs (hashes : List D) : List (D × D) := loopPairs pair hashes.length hashes

lemma pairUp_eq_map (hashes : List D) : pairUp pair hashes = (passPairs hashes).map fun p => pair p.1 p.2 := by
  induction hashes using pairUp.induct with
  | case1 a b hashes ih => simp [pairUp,passPairs,ih]
  | case2 a => rfl
  | case3 => rfl

lemma passPairs_injective (hl : xs.length = ys.length)
    (h : passPairs xs = passPairs ys) : xs = ys := by
  induction xs using pairUp.induct generalizing ys with
  | case1 a b xs ih =>
    obtain _ | ⟨c,_ | ⟨d,ys⟩⟩ := ys
    · cases hl
    · simp at hl
    · simp only [passPairs,cons.injEq,Prod.mk.injEq] at h
      obtain ⟨⟨rfl,rfl⟩,h⟩ := h
      rw [ih (by simpa using hl) h]
  | case2 a =>
    obtain ⟨b,rfl⟩ := length_eq_one_iff.mp hl.symm
    simpa [passPairs] using h
  | case3 => exact (length_eq_zero_iff.mp hl.symm).symm

lemma eq_of_map_eq {β : Type} {f : α → β} {xs ys : List α}
    (hf : Set.InjOn f {a | a ∈ xs ∨ a ∈ ys}) (h : xs.map f = ys.map f) : xs = ys := by
  induction xs generalizing ys with
  | nil => exact (map_eq_nil_iff.mp h.symm).symm
  | cons x xs ih =>
    match ys with
    | y :: ys =>
      obtain ⟨hx,ht⟩ := cons.inj h
      have hs : {a | a ∈ xs ∨ a ∈ ys} ⊆ {a | a ∈ x :: xs ∨ a ∈ y :: ys} :=
        fun a ha => ha.imp (mem_cons_of_mem x) (mem_cons_of_mem y)
      rw [hf (.inl (by simp)) (.inr (by simp)) hx,ih (hf.mono hs) ht]

lemma rootLoop_injOn (f : ℕ) (hpa : Set.InjOn (fun p : D × D => pair p.1 p.2)
      {p | p ∈ loopPairs pair f xs ∨ p ∈ loopPairs pair f ys})
    (hl : xs.length = ys.length) (hf : xs.length ≤ f+1)
    (h : rootLoop pair f xs = rootLoop pair f ys) : xs = ys := by
  induction f generalizing xs ys with
  | zero =>
    obtain _ | ⟨a,_ | ⟨b,xs⟩⟩ := xs
    · exact (length_eq_zero_iff.mp hl.symm).symm
    · obtain ⟨b,rfl⟩ := length_eq_one_iff.mp hl.symm
      simpa [rootLoop] using h
    · simp at hf
  | succ f ih =>
    obtain _ | ⟨a,_ | ⟨b,xs⟩⟩ := xs
    · exact (length_eq_zero_iff.mp hl.symm).symm
    · obtain ⟨b,rfl⟩ := length_eq_one_iff.mp hl.symm
      simpa [rootLoop] using h
    obtain _ | ⟨c,_ | ⟨d,ys⟩⟩ := ys
    · cases hl
    · simp at hl
    · have hx : loopPairs pair (f+1) (a :: b :: xs) =
          passPairs (a :: b :: xs) ++ loopPairs pair f (pairUp pair (a :: b :: xs)) := rfl
      have hy : loopPairs pair (f+1) (c :: d :: ys) =
          passPairs (c :: d :: ys) ++ loopPairs pair f (pairUp pair (c :: d :: ys)) := rfl
      rw [hx,hy] at hpa
      -- the roots agree above this level, so the digests of the next one do
      have hu : pairUp pair (a :: b :: xs) = pairUp pair (c :: d :: ys) := by
        refine ih (hpa.mono ?_) (by rw [pairUp_length,pairUp_length,hl]) ?_ h
        · rintro p (hp | hp)
          · exact .inl (mem_append_right _ hp)
          · exact .inr (mem_append_right _ hp)
        · rw [pairUp_length]
          omega
      rw [pairUp_eq_map,pairUp_eq_map] at hu
      refine passPairs_injective hl (eq_of_map_eq (hpa.mono ?_) hu)
      rintro p (hp | hp)
      · exact .inl (mem_append_left _ hp)
      · exact .inr (mem_append_left _ hp)

/-- Lists of equal length with one root are equal, when no two of the pairs that are
hashed for their roots collide. -/
theorem getMerkleRootSeq_injOn {xs ys : List D} (hp : Set.InjOn (fun p : D × D => pair p.1 p.2)
      {p | p ∈ hashedPairs pair xs ∨ p ∈ hashedPairs pair ys}) (hl : xs.length = ys.length)
    (h : getMerkleRootSeq pair xs = getMerkleRootSeq pair ys) : xs = ys := by
  unfold getMerkleRootSeq hashedPairs at *
  rw [← hl] at h hp
  exact rootLoop_injOn pair xs.length hp hl (by omega) h

theorem getMerkleRootSeq_injOn_three : ∃ ys : List ℕ, ys = [4,7,9] ∧
    getMerkleRootSeq Nat.pair [4,7,9] = getMerkleRootSeq Nat.pair ys ∧ [4,7,9] = ys := by
  have hi : Set.InjOn (fun p : ℕ × ℕ => Nat.pair p.1 p.2)
      {p | p ∈ hashedPairs Nat.pair [4,7,9] ∨ p ∈ hashedPairs Nat.pair [4,7,9]} :=
    fun p _ q _ h => Prod.ext_iff.mpr (pair_eq_pair.mp h)
  exact ⟨_,rfl,rfl,getMerkleRootSeq_injOn Nat.pair hi rfl rfl⟩

end
end Dpos.Merkle
