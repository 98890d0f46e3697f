import Dpos.MerkleTitles
import Dpos.TxGroup

/-! Sorting a block by titles, and its transaction groups. The check of a group asks for
executors below the para key, the sort for a whole title; an executor such as `user.p.b`
is below the key and has no title, so it passes the one as a para-chain transaction and is
filed by the other with the main chain. -/
namespace Dpos.TxGroup

open Merkle List

variable {c : Crypto} {group : List Transaction}

lemma checkWithFork_checkPara {fbc cf pf : Bool} {m mf : ℤ}
    (h : checkWithFork c fbc cf pf m mf group = .ok ()) : checkPara pf group = .ok () := by
  match group,h with
  | head :: tx :: txs,h =>
    simp only [checkWithFork,bind_eq_ok] at h
    obtain ⟨_,_,_,hp,-⟩ := h
    exact hp

lemma checkPara_one_title (h : checkPara true group = .ok ()) {tx tx' : Transaction}
    (htx : tx ∈ group) (htx' : tx' ∈ group) {t t' : Bytes}
    (ht : getParaExecTitleName tx.execer = some t) (ht' : getParaExecTitleName tx'.execer = some t') :
    t = t' := by
  simp only [checkPara,if_true] at h
  split_ifs at h with ho
  have hme : ∀ {tx : Transaction} {t : Bytes}, tx ∈ group → getParaExecTitleName tx.execer = some t →
      t ∈ (group.filterMap fun tx => getParaExecTitleName tx.execer).dedup := fun htx ht =>
    mem_dedup.mpr (mem_filterMap.mpr ⟨_,htx,ht⟩)
  have hm := hme htx ht
  have hm' := hme htx' ht'
  generalize (group.filterMap fun tx => getParaExecTitleName tx.execer).dedup = para at ho hm hm'
  obtain _ | ⟨u,_ | _⟩ := para
  · cases hm
  · rw [mem_singleton.mp hm,mem_singleton.mp hm']
  · simp at ho

lemma checkPara_mixed (h : checkPara true group = .ok ()) (hm : ¬OneChain group) :
    (∃ tx ∈ group, tx.title = mainChainName) ∧ ∃ tx ∈ group, mainChainName < tx.title := by
  rw [OneChain,not_or] at hm
  obtain ⟨hma,hp⟩ := hm
  push Not at hma hp
  obtain ⟨tx,htx,hti⟩ := hma
  obtain ⟨ht,hlt⟩ := tx.title_cases.resolve_left fun h => hti h.1
  refine ⟨?_,tx,htx,hlt⟩
  obtain ⟨tx',htx',hne⟩ := hp tx.title
  refine ⟨tx',htx',(tx'.title_cases.resolve_right fun h' => hne ?_).2⟩
  rw [checkPara_one_title h htx htx' ht h'.1]
  exact h'.1

lemma transactionSort_title_le (txs : List Transaction) :
    (transactionSort txs).Pairwise fun tx tx' => tx.title ≤ tx'.title := by
  refine pairwise_flatMap.mpr ⟨fun v _ => ?_,(sortedTitles_pairwise txs).imp fun hlt => ?_⟩
  · refine pairwise_of_forall_mem_list fun tx ht tx' ht' => ?_
    simp only [mem_filter,decide_eq_true_eq] at ht ht'
    rw [ht.2,ht'.2]
  · intro tx ht tx' ht'
    simp only [mem_filter,decide_eq_true_eq] at ht ht'
    rw [ht.2,ht'.2]
    exact hlt.le

lemma OneChain.infix_sort (h : OneChain group) (b a : List Transaction) :
    group <:+: transactionSort (b ++ group ++ a) := by
  cases group with
  | nil => exact nil_infix
  | cons tx rest =>
    have hs : ∀ tx' ∈ tx :: rest, tx'.title = tx.title := by
      rcases h with h | ⟨t,h⟩ <;> intro tx' ht' <;>
        rw [Transaction.title,Transaction.title,h tx' ht',h tx mem_cons_self]
    have hi : tx.title ∈ sortedTitles (b ++ tx :: rest ++ a) := mem_sortedTitles.mpr ⟨tx,by simp,rfl⟩
    obtain ⟨l,l',hl⟩ := append_of_mem hi
    have hb : ((b ++ tx :: rest ++ a).filter fun tx' => tx'.title = tx.title) =
        (b.filter fun tx' => tx'.title = tx.title) ++ tx :: rest ++
          a.filter fun tx' => tx'.title = tx.title := by
      rw [filter_append,filter_append,filter_eq_self.mpr fun tx' ht' => decide_eq_true (hs tx' ht')]
    change tx :: rest <:+: (sortedTitles _).flatMap _
    rw [hl,flatMap_append,flatMap_cons,hb]
    exact ((infix_append _ _ _).trans (prefix_append _ _).isInfix).trans
      (suffix_append _ _).isInfix

lemma exists_fresh (group : List Transaction) : ∃ x ∉ group, x.title = mainChainName := by
  obtain ⟨k,hk⟩ := Infinite.exists_notMem_finset (group.map fun tx => tx.payload.length).toFinset
  refine ⟨⟨[],replicate k 0,none,0,0,0,[],0,[],[]⟩,fun hm => hk ?_,rfl⟩
  exact mem_toFinset.mpr (mem_map.mpr ⟨_,hm,by simp⟩)

/-- A transaction of the main chain behind it tears a mixed group apart. -/
theorem not_infix_sort {x : Transaction} (hx : x ∉ group) (hxt : x.title = mainChainName)
    (hma : ∃ tx ∈ group, tx.title = mainChainName) (hpa : ∃ tx ∈ group, mainChainName < tx.title) :
    ¬group <:+: transactionSort (group ++ [x]) := by
  rintro ⟨l,l',hso⟩
  have hp : (l ++ group ++ l').Perm (group ++ [x]) := hso ▸ transactionSort_perm _
  have hr : (l ++ l').Perm [x] := by
    have hs : (group ++ (l ++ l')).Perm (group ++ [x]) := by
      refine List.Perm.trans ?_ hp
      rw [← append_assoc]
      exact perm_append_comm.append_right l'
    exact (perm_append_left_iff group).mp hs
  rcases append_eq_singleton_iff.mp (perm_singleton.mp hr) with ⟨rfl,rfl⟩ | ⟨rfl,rfl⟩
  · -- x would be last, behind a transaction of a later title
    obtain ⟨tx,ht,hlt⟩ := hpa
    have hl := transactionSort_title_le (group ++ [x])
    rw [← hso,nil_append,pairwise_append] at hl
    have := hl.2.2 tx ht x (mem_singleton_self x)
    rw [hxt] at this
    exact absurd hlt (not_lt.mpr this)
  · -- x would be first, before a transaction of its own title
    have hf := filter_transactionSort (group ++ [x]) mainChainName
    rw [← hso,append_nil,filter_append,filter_append,filter_eq_self.mpr (by simpa using hxt)] at hf
    obtain ⟨tx,ht,hm⟩ := hma
    cases hg : group.filter fun tx => tx.title = mainChainName with
    | nil =>
      have hi : tx ∈ group.filter fun tx => tx.title = mainChainName := mem_filter.mpr ⟨ht,decide_eq_true hm⟩
      rw [hg] at hi
      simp at hi
    | cons y ys =>
      rw [hg,singleton_append,cons_append,cons.injEq] at hf
      have hy : y ∈ group.filter fun tx => tx.title = mainChainName := by rw [hg]; simp
      exact hx (hf.1 ▸ (mem_filter.mp hy).1)

/-- A group that passes the check stays consecutive and in order in every list of single
transactions and such groups exactly if its members all have a title or all have none. -/
theorem transactionSort_keeps_iff {forkBlockCheck checkFork : Bool} {minfee maxFee : ℤ}
    (h : checkWithFork c forkBlockCheck checkFork true minfee maxFee group = .ok ()) :
    (∀ parts : List (List Transaction), (∀ part ∈ parts, part.length = 1 ∨
        checkWithFork c forkBlockCheck checkFork true minfee maxFee part = .ok ()) →
      group ∈ parts → group <:+: transactionSort parts.flatten) ↔ OneChain group := by
  constructor
  · intro hk
    by_contra hm
    obtain ⟨hma,hp⟩ := checkPara_mixed (checkWithFork_checkPara h) hm
    obtain ⟨x,hx,hxt⟩ := exists_fresh group
    refine not_infix_sort hx hxt hma hp ?_
    have := hk [group,[x]] (by simp [h]) mem_cons_self
    simpa using this
  · intro ho parts _ hme
    obtain ⟨l,l',rfl⟩ := append_of_mem hme
    simpa using ho.infix_sort l.flatten l'.flatten

theorem transactionSort_keeps_twoCalls : (∀ parts : List (List Transaction), (∀ part ∈ parts, part.length = 1 ∨
        checkWithFork Crypto.framed true true true 1 0 part = .ok ()) →
      twoCalls none ∈ parts → twoCalls none <:+: transactionSort parts.flatten) ↔ OneChain (twoCalls none) :=
  transactionSort_keeps_iff (checkWithFork_twoCalls false)

/-- A call below the title `user.p.a.` and one of `user.p.b`. -/
def mixedCalls : List Transaction :=
  let second : Transaction := ⟨Bytes.ofString "user.p.b",[2],none,0,0,0,[],2,[],[]⟩
  let first : Transaction := ⟨Bytes.ofString "user.p.a.x",[1],none,10,0,0,[],2,[],second.hash Crypto.framed⟩
  [first,second].map fun tx => {tx with header := first.hash Crypto.framed}

/-- They pass as a group, and the sort exchanges them. -/
theorem transactionSort_mixedCalls : checkWithFork Crypto.framed true true true 1 0 mixedCalls = .ok () ∧
      transactionSort mixedCalls = mixedCalls.reverse ∧ ¬mixedCalls <:+: transactionSort mixedCalls := by
  decide +kernel

end Dpos.TxGroup
