import Dpos.PreExec

/-! `FilterParaTxsByTitle`: the transactions of a block that belong to a parallel chain, with the
whole of the groups they are in. -/
namespace Dpos.ParaFilter

open List

structure TxDetail where
  tx : Transaction
  receipt : ReceiptData
  index : UInt32
  deriving DecidableEq, Repr

inductive FilterError
  | panic
  | endless
  deriving DecidableEq, Repr

def isSpecificParaExecName (title exec : Bytes) : Bool := isParaExecName exec && title.isPrefixOf exec

section
variable (c : Crypto) (detail : BlockDetail) (title : Bytes)

def txDetail (i : ℕ) : Except FilterError TxDetail :=
  match detail.block.txs[i]?,detail.receipts[i]? with
  | some tx,some receipt => .ok ⟨tx,receipt,.ofNat i⟩
  | _,_ => .error .panic

def txDetails : ℕ → ℕ → Except FilterError (List TxDetail)
  | _,0 => return []
  | i,n+1 => do
    let d ← txDetail detail i
    return d :: (← txDetails (i+1) n)

/-- The search for the head of a group downwards; 0 if there is none. -/
def headIdx (tx : Transaction) : ℕ → ℕ
  | 0 => 0
  | i+1 => if (detail.block.txs[i+1]?).any fun head => tx.header = head.hash c then i+1 else headIdx tx i

def filterParaTxGroup (tx : Transaction) (index : ℕ) : Except FilterError (List TxDetail × ℕ) := do
  let head := headIdx c detail tx index
  return (← txDetails detail head tx.groupCount.toNat,head+tx.groupCount.toNat)

/-- The loop from an index on; it goes on behind a group, and may go back if the head was not found. -/
def filterFrom : ℕ → ℕ → Except FilterError (List TxDetail)
  | 0,_ => .error .endless
  | fuel+1,i =>
    match detail.block.txs[i]? with
    | none => .ok []
    | some tx =>
      if isSpecificParaExecName title tx.execer then
        if 2 ≤ tx.groupCount then do
          let r ← filterParaTxGroup c detail tx i
          return r.1 ++ (← filterFrom fuel r.2)
        else do
          let d ← txDetail detail i
          return d :: (← filterFrom fuel (i+1))
      else filterFrom fuel (i+1)

def filterParaTxsByTitle : Except FilterError (List TxDetail) :=
  filterFrom c detail title (detail.block.txs.length+1) 0

end

/-- A transaction on its own, or a group: each member has its size and the hash of its head, which no other
member has. -/
def IsUnit (c : Crypto) : List Transaction → Prop
  | [] => False
  | [tx] => tx.groupCount < 2
  | head :: rest => (∀ tx ∈ head :: rest, tx.groupCount = rest.length+1 ∧ tx.header = head.hash c) ∧
    ∀ tx ∈ rest, tx.hash c ≠ head.hash c

instance (c : Crypto) : DecidablePred (IsUnit c)
  | [] => inferInstanceAs (Decidable False)
  | [tx] => inferInstanceAs (Decidable (tx.groupCount < 2))
  | _ :: _ :: _ => inferInstanceAs (Decidable (_ ∧ _))

/-- The transactions with their indices that are to be returned, from an index on. -/
def wanted (title : Bytes) : ℕ → List (List Transaction) → List (Transaction × ℕ)
  | _,[] => []
  | i,unit :: units =>
    (if unit.any fun tx => isSpecificParaExecName title tx.execer then unit.zipIdx i else []) ++
      wanted title (i+unit.length) units

section
variable {c : Crypto} {detail : BlockDetail} {title : Bytes} {before unit after : List Transaction}

/-- What is returned for transactions: each with its own receipt and its index in 32 bits. -/
def Details (detail : BlockDetail) : List TxDetail → List (Transaction × ℕ) → Prop :=
  Forall₂ fun d p => d.tx = p.1 ∧ d.index = .ofNat p.2 ∧ detail.receipts[p.2]? = some d.receipt

variable (hrc : detail.receipts.length = detail.block.txs.length)

include hrc in
lemma txDetails_ok (h : detail.block.txs = before ++ unit ++ after) :
    ∃ l, txDetails detail before.length unit.length = .ok l ∧ Details detail l (unit.zipIdx before.length) := by
  induction unit generalizing before with
  | nil => exact ⟨[],rfl,.nil⟩
  | cons tx unit ih =>
    obtain ⟨l,hl,hd⟩ := ih (by simp [h] : detail.block.txs = before ++ [tx] ++ unit ++ after)
    have ht : detail.block.txs[before.length]? = some tx := by simp [h]
    obtain ⟨receipt,hr⟩ : ∃ receipt, detail.receipts[before.length]? = some receipt :=
      ⟨_,getElem?_eq_getElem (by rw [hrc,h]; simp)⟩
    rw [length_append,length_singleton] at hl hd
    exact ⟨⟨tx,receipt,.ofNat before.length⟩ :: l,by simp [txDetails,txDetail,ht,hr,hl],.cons ⟨rfl,rfl,hr⟩ hd⟩

lemma filterFrom_skip (h : detail.block.txs = before ++ unit ++ after) (f : ℕ)
    (hn : ∀ tx ∈ unit, isSpecificParaExecName title tx.execer = false) :
    filterFrom c detail title (f+unit.length) before.length =
      filterFrom c detail title f (before.length+unit.length) := by
  induction unit generalizing before with
  | nil => rfl
  | cons tx unit ih =>
    have htx : detail.block.txs[before.length]? = some tx := by simp [h]
    have hr := ih (by simp [h] : detail.block.txs = before ++ [tx] ++ unit ++ after) fun t ht => hn t (mem_cons_of_mem _ ht)
    rw [length_append,length_singleton] at hr
    rw [length_cons,← add_assoc,filterFrom,htx]
    simp only [hn tx mem_cons_self,hr]
    simp [add_comm,add_left_comm]

lemma headIdx_eq {head tx : Transaction} {rest : List Transaction} (h : detail.block.txs = before ++ (head :: rest) ++ after)
    (hh : tx.header = head.hash c) (hr : ∀ t ∈ rest, t.hash c ≠ head.hash c) {k : ℕ} (hk : k ≤ rest.length) :
    headIdx c detail tx (before.length+k) = before.length := by
  induction k with
  | zero =>
    cases hb : before.length with
    | zero => rfl
    | succ n =>
      have ha : detail.block.txs[n+1]? = some head := by rw [← hb]; simp [h]
      rw [add_zero,headIdx,ha,if_pos (by simpa using hh)]
  | succ k ih =>
    have ha : detail.block.txs[before.length+k+1]? = some (rest.get ⟨k,hk⟩) := by
      rw [h,append_assoc,getElem?_append_right (by omega)]
      simp [show before.length+k+1-before.length = k+1 by omega,getElem?_append_left (show k < rest.length from hk)]
    rw [← add_assoc,headIdx,ha,if_neg,ih (by omega)]
    simpa [hh] using (hr _ (get_mem rest ⟨k,hk⟩)).symm

include hrc in
lemma filterFrom_unit (h : detail.block.txs = before ++ unit ++ after) (hu : IsUnit c unit)
    (ha : unit.any (fun tx => isSpecificParaExecName title tx.execer) = true) :
    ∃ l s, s < unit.length ∧ Details detail l (unit.zipIdx before.length) ∧
      ∀ f, filterFrom c detail title (f+1+s) before.length =
        (filterFrom c detail title f (before.length+unit.length)).map (l ++ ·) := by
  obtain ⟨tx,hf⟩ := Option.isSome_iff_exists.mp (find?_isSome.mpr (any_eq_true.mp ha))
  obtain ⟨ho,skip,rest,hsp,hn⟩ := find?_eq_some_iff_append.mp hf
  obtain ⟨l,hl,hd⟩ := txDetails_ok hrc h
  refine ⟨l,skip.length,by simp [hsp],hd,fun f => ?_⟩
  have ht : detail.block.txs[before.length+skip.length]? = some tx := by simp [h,hsp]
  rw [filterFrom_skip (by rw [h,hsp,append_assoc before,append_assoc skip,append_assoc before]) _ (by simpa using hn),
    filterFrom,ht]
  simp only [ho,if_true]
  cases unit with
  | nil => exact hu.elim
  | cons head ms =>
    cases ms with
    | nil =>
      obtain ⟨rfl,hr⟩ : skip = [] ∧ rest = [] := by
        have hle := congrArg length hsp
        simp only [length_append,length_cons,length_nil] at hle
        exact ⟨length_eq_zero_iff.mp (by omega),length_eq_zero_iff.mp (by omega)⟩
      obtain rfl : head = tx := by simpa [hr] using hsp
      rw [if_neg (not_le.mpr hu)]
      obtain ⟨d,hd',hl⟩ := bind_eq_ok.mp hl
      cases hl
      simp only [length_nil,add_zero,hd',ok_bind]
      cases filterFrom c detail title f (before.length+1) <;> rfl
    | cons m ms =>
      obtain ⟨hc,hh⟩ := hu.1 tx (hsp ▸ by simp)
      rw [if_pos (by rw [hc]; simp; omega),filterParaTxGroup,headIdx_eq h hh hu.2 (by
        have hle := congrArg length hsp
        simp only [length_append,length_cons] at hle ⊢
        omega),hc]
      have hs : (((m :: ms).length : ℤ)+1).toNat = (head :: m :: ms).length := by simp; omega
      rw [hs,hl]
      simp only [ok_bind,pure_eq_ok]
      cases filterFrom c detail title f (before.length+(head :: m :: ms).length) <;> rfl

include hrc in
lemma filterFrom_units {uns : List (List Transaction)} (h : detail.block.txs = before ++ uns.flatten)
    (hun : ∀ unit ∈ uns, IsUnit c unit) {f : ℕ} (hfu : uns.flatten.length < f) :
    ∃ l, filterFrom c detail title f before.length = .ok l ∧ Details detail l (wanted title before.length uns) := by
  induction uns generalizing before f with
  | nil =>
    obtain ⟨f,rfl⟩ := Nat.exists_eq_succ_of_ne_zero (by omega : f ≠ 0)
    exact ⟨[],by simp [filterFrom,h],.nil⟩
  | cons unit uns ih =>
    rw [flatten_cons,← append_assoc] at h
    rw [flatten_cons,length_append] at hfu
    have hr := fun f (hf : uns.flatten.length < f) => ih h (fun u hu => hun u (mem_cons_of_mem _ hu)) hf
    rw [length_append] at hr
    by_cases ha : unit.any (fun tx => isSpecificParaExecName title tx.execer) = true
    · obtain ⟨l,skipped,hlt,hd,hrun⟩ := filterFrom_unit hrc h (hun unit mem_cons_self) ha
      obtain ⟨f,rfl⟩ : ∃ n, f = n+1+skipped := ⟨f-1-skipped,by omega⟩
      obtain ⟨l',hl',hd'⟩ := hr f (by omega)
      exact ⟨l ++ l',by rw [hrun,hl']; rfl,by rw [wanted,if_pos ha]; exact rel_append hd hd'⟩
    · obtain ⟨f,rfl⟩ : ∃ n, f = n+unit.length := ⟨f-unit.length,by omega⟩
      obtain ⟨l,hl,hd⟩ := hr f (by omega)
      refine ⟨l,?_,by rwa [wanted,if_neg ha,nil_append]⟩
      rw [filterFrom_skip h _ (by simpa using ha),hl]

lemma wanted_sublist (title : Bytes) (uns : List (List Transaction)) (i : ℕ) :
    (wanted title i uns).Sublist (uns.flatten.zipIdx i) := by
  induction uns generalizing i with
  | nil => simp [wanted]
  | cons unit uns ih =>
    rw [wanted,flatten_cons,zipIdx_append]
    refine .append ?_ (ih _)
    split_ifs
    · exact .refl _
    · exact nil_sublist _

lemma Details.exact {l : List TxDetail} {txs : List (Transaction × ℕ)} (h : Details detail l txs)
    (hlt : ∀ p ∈ txs, p.2 < 2^32) : l.map (fun d => (d.tx,d.index.toNat)) = txs ∧
      ∀ d ∈ l, detail.receipts[d.index.toNat]? = some d.receipt := by
  induction h with
  | nil => simp
  | cons hd _ ih =>
    obtain ⟨ht,hi,hr⟩ := hd
    obtain ⟨hh,hlt⟩ := forall_mem_cons.mp hlt
    obtain ⟨hm,hrs⟩ := ih hlt
    have hn := (congrArg UInt32.toNat hi).trans (UInt32.toNat_ofNat_of_lt hh)
    exact ⟨by rw [map_cons,hm,ht,hn],forall_mem_cons.mpr ⟨hn ▸ hr,hrs⟩⟩

/-- In a block of complete groups, whose indices fit into 32 bits, exactly the transactions of the title and their
groups are returned, each once, in the order of their indices and with their receipts. -/
theorem filterParaTxsByTitle_exact (title : Bytes) {units : List (List Transaction)} (hu : ∀ unit ∈ units, IsUnit c unit)
    (ht : detail.block.txs = units.flatten) (hrc : detail.receipts.length = detail.block.txs.length)
    (hl : detail.block.txs.length ≤ 2^32) :
    ∃ l, filterParaTxsByTitle c detail title = .ok l ∧ l.map (fun d => (d.tx,d.index.toNat)) = wanted title 0 units ∧
      (wanted title 0 units).Sublist (detail.block.txs.zipIdx) ∧
      ∀ d ∈ l, detail.receipts[d.index.toNat]? = some d.receipt := by
  obtain ⟨l,hrun,hd⟩ := filterFrom_units hrc (show detail.block.txs = [] ++ units.flatten from ht) hu (Nat.lt_succ_self _)
  have hs : (wanted title 0 units).Sublist detail.block.txs.zipIdx := ht ▸ wanted_sublist title units 0
  obtain ⟨hm,hr⟩ := hd.exact fun p hp => (snd_lt_of_mem_zipIdx (hs.mem hp)).trans_le (by simpa using hl)
  exact ⟨l,by rw [filterParaTxsByTitle,ht]; exact hrun,hm,hs,hr⟩

end

def ofExec (exec : String) (count : ℤ) (header : Bytes) : Transaction :=
  ⟨Bytes.ofString exec,[],none,0,0,0,[],count,header,[]⟩

def blockOf (txs : List Transaction) : BlockDetail :=
  ⟨⟨0,[],[],[],0,0,0,[],0,none,txs⟩,txs.zipIdx.map fun p => ⟨p.2,[]⟩,[],[]⟩

/-- A main chain transaction, and two groups of which the second one has a transaction of the title as its last. -/
def grouped : List (List Transaction) :=
  let pair := fun exec last => let header := (ofExec exec 2 []).hash Crypto.framed
    [ofExec exec 2 header,ofExec last 2 header]
  [[ofExec "coins" 0 []],pair "none" "user.p.y.token",pair "ticket" "user.p.x.token"]

theorem filterParaTxsByTitle_grouped : ∃ l,
    filterParaTxsByTitle Crypto.framed (blockOf grouped.flatten) (Bytes.ofString "user.p.x.") = .ok l ∧
    l.map (fun d => (d.tx,d.index.toNat)) = wanted (Bytes.ofString "user.p.x.") 0 grouped ∧
    (wanted (Bytes.ofString "user.p.x.") 0 grouped).map Prod.snd = [3,4] ∧
    ∀ d ∈ l, (blockOf grouped.flatten).receipts[d.index.toNat]? = some d.receipt := by
  obtain ⟨l,hl,hm,-,hr⟩ := @filterParaTxsByTitle_exact .framed (blockOf grouped.flatten) (Bytes.ofString "user.p.x.") grouped
    (by decide +kernel) rfl (by decide +kernel) (by decide +kernel)
  exact ⟨l,hl,hm,by decide +kernel,hr⟩

lemma wanted_replicate {title : Bytes} {tx : Transaction} (h : isSpecificParaExecName title tx.execer = true) (n i : ℕ) :
    wanted title i (replicate n [tx]) = (replicate n tx).zipIdx i := by
  induction n generalizing i with
  | zero => rfl
  | succ n ih => simp [replicate_succ,wanted,h,ih]

/-- The index behind `2^32` transactions is not returned. -/
theorem filterParaTxsByTitle_wraps : ∃ units : List (List Transaction), (∀ unit ∈ units, IsUnit Crypto.framed unit) ∧
    ¬∃ l, filterParaTxsByTitle Crypto.framed (blockOf units.flatten) (Bytes.ofString "user.p.x.") = .ok l ∧
      l.map (fun d => (d.tx,d.index.toNat)) = wanted (Bytes.ofString "user.p.x.") 0 units := by
  refine ⟨replicate (2^32+1) [ofExec "user.p.x.token" 0 []],fun u hu => eq_of_mem_replicate hu ▸ by decide,?_⟩
  rintro ⟨l,-,hm⟩
  have hw : (ofExec "user.p.x.token" 0 [],2^32) ∈ l.map fun d => (d.tx,d.index.toNat) := by
    rw [hm,wanted_replicate (by decide +kernel),mk_mem_zipIdx_iff_getElem?,getElem?_replicate_of_lt (Nat.lt_succ_self _)]
  obtain ⟨d,-,hd⟩ := mem_map.mp hw
  exact d.index.toNat_lt.ne (Prod.ext_iff.mp hd).2

end Dpos.ParaFilter
