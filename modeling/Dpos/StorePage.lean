import Dpos.AccountDB
import Dpos.Iterator
import Dpos.MavlRange

/-! The paged queries of the store over a range of keys of a state: the total of the
account balances, and the lists of keys between two bounds or with a given ending.
A caller asks for page after page, each from the next key that the last one returned. -/
namespace Dpos.StorePage

open Mavl AccountDB List Codec Prod

variable {st : Option Bytes} {D : Type}

/-- Ask for pages until one returns no next key; nothing if that takes more than `n`. -/
def pages {Reply : Type} (page : Option Bytes → Result Reply) (nextKey : Reply → Bytes) :
    ℕ → Option Bytes → Result (Option (List Reply))
  | 0, _ => .ok none
  | n+1, start => do
    let reply ← page start
    if nextKey reply = [] then return some [reply]
    else return (← pages page nextKey n (some (nextKey reply))).map (reply :: ·)

section
variable {es : List (Bytes × Bytes)} {sp : Option Bytes}

lemma filter_from (hs : es.Pairwise fun p q => p.1 < q.1) {p : Bytes × Bytes}
    {l l' : List (Bytes × Bytes)} (h : (es.filter fun p => within st sp false p.1) = l ++ p :: l') :
    (es.filter fun q => within (some p.1) sp false q.1) = p :: l' := by
  have hp : within st sp false p.1 = true := by
    have : p ∈ es.filter fun p => within st sp false p.1 := by rw [h]; simp
    exact (mem_filter.mp this).2
  have hb : ∀ q : Bytes × Bytes, within (some p.1) sp false q.1 =
      (decide (p.1 ≤ q.1) && within st sp false q.1) := fun q => by
    have hst : st.all (· ≤ p.1) = true := by
      simp only [within,Bool.and_eq_true] at hp
      exact hp.1
    cases st with
    | none => simp [within]
    | some a =>
      have ha : a ≤ p.1 := by simpa using hst
      by_cases hq : p.1 ≤ q.1
      · simp [within,hq,ha.trans hq]
      · simp [within,hq]
  have hpi := hs.filter fun p => within st sp false p.1
  simp only [hb,← filter_filter,h] at hpi ⊢
  rw [pairwise_append,pairwise_cons] at hpi
  obtain ⟨-,⟨haf,-⟩,hbe⟩ := hpi
  rw [filter_append,filter_eq_nil_iff.mpr fun q hq => by simpa using hbe q hq p mem_cons_self,nil_append]
  refine filter_eq_self.mpr fun q hq => ?_
  rcases mem_cons.mp hq with rfl | hq
  · simp
  · simpa using (haf q hq).le

end

/-! ### The total of the balances -/

structure ReplyGetTotalCoins where
  count : ℤ
  num : ℤ
  amount : ℤ
  nextKey : Bytes
  deriving DecidableEq, Repr

/-- The callback `IterateRangeByStateHash` of the reply. `Num` cannot pass `Count`. -/
def ReplyGetTotalCoins.iterateRangeByStateHash (decode : Bytes → Option Account) (key value : Bytes)
    (t : ReplyGetTotalCoins) : Bool × ReplyGetTotalCoins :=
  match decode value with
  | none => (true,t)
  | some acc =>
    if t.num ≥ t.count then (true,{t with nextKey := key})
    else (false,{t with num := t.num+1, amount := int64 (t.amount+acc.balance)})

section
variable [DecidableEq D] (decode : Bytes → Option Account)

def getTotalCoins (c : Codec D) (config : Option TreeConfig) (db : HashKey D → Option (StoreNode D))
    (stateHash : Option (HashKey D)) (stop : Option Bytes) (count : ℤ) (start : Option Bytes) :
    Result ReplyGetTotalCoins :=
  iterateRangeByStateHash c config db stateHash start stop true
    (ReplyGetTotalCoins.iterateRangeByStateHash decode) ⟨count,0,0,[]⟩

def accounts (l : List (Bytes × Bytes)) : List (Bytes × Bytes) := l.takeWhile fun p => (decode p.2).isSome

def totalBalance (l : List (Bytes × Bytes)) : ℤ :=
  (l.map fun p => ((decode p.2).map Account.balance).getD 0).sum

lemma accounts_drop {l : List (Bytes × Bytes)} {k : ℕ} (hk : k ≤ (accounts decode l).length) :
    accounts decode (l.drop k) = (accounts decode l).drop k := by
  induction l generalizing k with
  | nil => simp [accounts]
  | cons p l ih =>
    cases k with
    | zero => rfl
    | succ k =>
      cases hp : (decode p.2).isSome with
      | false => simp [accounts,hp] at hk
      | true =>
        simp only [accounts,takeWhile_cons,hp,if_true,drop_succ_cons,length_cons] at hk ⊢
        exact ih (by simpa [accounts] using hk)

/-- One page takes what there is room for and names the account after that. -/
theorem visit_totalCoins (l : List (Bytes × Bytes)) (count num a : ℤ) (nk : Bytes) (ro : ℕ)
    (hr : count = num+ro) :
    (visit (ReplyGetTotalCoins.iterateRangeByStateHash decode) l ⟨count,num,int64 a,nk⟩).2 =
      ⟨count,num+((accounts decode l).take ro).length,
        int64 (a+totalBalance decode ((accounts decode l).take ro)),
        (((accounts decode l).drop ro).head?.map fst).getD nk⟩ := by
  induction l generalizing num a ro with
  | nil => simp [visit,accounts,totalBalance]
  | cons p l ih =>
    cases hp : decode p.2 with
    | none => simp [visit,ReplyGetTotalCoins.iterateRangeByStateHash,accounts,totalBalance,hp]
    | some acc =>
      have hc : accounts decode (p :: l) = p :: accounts decode l := by simp [accounts,hp]
      cases ro with
      | zero =>
        have hf : num ≥ count := by simp [hr]
        simp [visit,ReplyGetTotalCoins.iterateRangeByStateHash,hc,totalBalance,hp,hf]
      | succ ro =>
        have hfe : ¬num ≥ count := by push_cast at hr; omega
        have hnext := ih (num+1) (a+acc.balance) ro (by push_cast at hr; omega)
        simp only [visit,ReplyGetTotalCoins.iterateRangeByStateHash,hp,if_neg hfe,
          Bool.false_eq_true,if_false,hc,take_succ_cons,drop_succ_cons,length_cons,int64,
          Word.wrap_wrap_add]
        simp only [int64] at hnext
        rw [hnext]
        simp only [totalBalance,map_cons,sum_cons,hp,Option.map_some,Option.getD_some]
        congr 1
        · push_cast
          ring
        · congr 1
          ring

lemma page_totalCoins (l : List (Bytes × Bytes)) (count : ℕ) :
    (visit (ReplyGetTotalCoins.iterateRangeByStateHash decode) l ⟨count,0,0,[]⟩).2 =
      ⟨count,((accounts decode l).take count).length,
        int64 (totalBalance decode ((accounts decode l).take count)),
        (((accounts decode l).drop count).head?.map fst).getD []⟩ := by
  have h := visit_totalCoins decode l count 0 0 [] count (by ring)
  rw [zero_add,zero_add] at h
  exact h

/-- The pages over a list of entries count its accounts once each. -/
theorem pages_totalCoins {entries : List (Bytes × Bytes)}
    (hso : entries.Pairwise fun p q => p.1 < q.1) {stop : Option Bytes} {count : ℕ}
    (hct : 1 ≤ count) {page : Option Bytes → Result ReplyGetTotalCoins}
    (hpa : ∀ start, page start = .ok (visit (ReplyGetTotalCoins.iterateRangeByStateHash decode)
      (entries.filter fun p => within start stop false p.1) ⟨count,0,0,[]⟩).2) (n : ℕ) (start : Option Bytes)
    (hn : (accounts decode (entries.filter fun p => within start stop false p.1)).length ≤ n) :
    ∃ rs, pages page ReplyGetTotalCoins.nextKey (n+1) start = .ok (some rs) ∧
      (rs.map ReplyGetTotalCoins.num).sum =
        (accounts decode (entries.filter fun p => within start stop false p.1)).length ∧
      int64 (rs.map ReplyGetTotalCoins.amount).sum =
        int64 (totalBalance decode (accounts decode (entries.filter fun p => within start stop false p.1))) := by
  have hp := hpa start
  rw [page_totalCoins] at hp
  have hs := hso.filter fun p => within start stop false p.1
  generalize hM : (entries.filter fun p => within start stop false p.1) = M at hn hp hs ⊢
  cases hd : (accounts decode M).drop count with
  | nil =>
    -- the last page
    rw [hd,take_of_length_le (drop_eq_nil_iff.mp hd)] at hp
    refine ⟨_,by rw [pages,hp,ok_bind,if_pos (by simp)]; rfl,by simp,?_⟩
    simpa [int64] using Word.wrap_wrap_add 64 (totalBalance decode (accounts decode M)) 0
  | cons p rest =>
    have hlt : count < (accounts decode M).length := by
      by_contra hg
      simp [drop_eq_nil_iff.mpr (not_lt.mp hg)] at hd
    cases n with
    | zero => omega
    | succ n =>
      have hdr := accounts_drop decode hlt.le
      rw [hd] at hp hdr
      obtain ⟨l',hl'⟩ : p :: rest <+: M.drop count := hdr ▸ takeWhile_prefix _
      have hc : M = M.take count ++ p :: (rest ++ l') := by rw [← cons_append,hl',take_append_drop]
      have hf := filter_from hso (hM.trans hc)
      rw [← cons_append,hl'] at hf
      have hne : p.1 ≠ [] := by
        obtain ⟨q,hq⟩ : ∃ q, q ∈ M.take count := exists_mem_of_length_pos (by
          have hle : (accounts decode M).length ≤ M.length := (takeWhile_sublist _).length_le
          rw [length_take]
          omega)
        rw [hc,pairwise_append] at hs
        intro hni
        have := hs.2.2 q hq p mem_cons_self
        rw [hni] at this
        exact absurd this (not_lt_nil _)
      obtain ⟨rs,hrun,hnu,ha⟩ := pages_totalCoins hso hct hpa n (some p.1) (by
        rw [hf,hdr,← hd,length_drop]
        omega)
      rw [hf,hdr] at hnu ha
      refine ⟨_ :: rs,by rw [pages,hp,ok_bind,if_neg (by simpa using hne)]; simp [hrun]; rfl,?_,?_⟩
      · rw [map_cons,sum_cons,hnu,← hd]
        simp only [length_drop]
        omega
      · have ht : totalBalance decode (accounts decode M) =
            totalBalance decode ((accounts decode M).take count) + totalBalance decode (p :: rest) := by
          simp only [← hd,totalBalance,map_take,map_drop,sum_take_add_sum_drop]
        rw [map_cons,sum_cons,ht]
        simp only [int64] at ha ⊢
        rw [Word.wrap_wrap_add,← Word.wrap_add_wrap,ha,Word.wrap_add_wrap]

variable {c : Codec D} {config : Option TreeConfig} {s : Store D} {R : Option (HashKey D)}

/-- At every known root and for every range, the pages end, and together they count
once each pair of the range that comes before the first value that is no account. -/
theorem getTotalCoins_pages (hc : c.Ideal) (hs : Reachable c config s) (hR : s.Known c R)
    (hca : s.written < capacity) (start stop : Option Bytes) {count : ℕ} (hct : 1 ≤ count) :
    ∃ t entries n replies, (Tree.new s.db config).load c R = .ok t ∧ Lists t entries ∧
      pages (getTotalCoins decode c config s.db R stop count) ReplyGetTotalCoins.nextKey n start =
        .ok (some replies) ∧ (replies.map ReplyGetTotalCoins.num).sum =
        (accounts decode (entries.filter fun p => within start stop false p.1)).length ∧
      int64 (replies.map ReplyGetTotalCoins.amount).sum = int64 (totalBalance decode
        (accounts decode (entries.filter fun p => within start stop false p.1))) := by
  obtain ⟨t,entries,hlo,hl,hrun⟩ := hs.exists_lists hc hR hca
  have hp : ∀ start, getTotalCoins decode c config s.db R stop count start = _ :=
    fun start => hrun start stop _ _ _
  obtain ⟨replies,hpg,hn,ha⟩ := pages_totalCoins decode hl.sorted hct hp _ start le_rfl
  exact ⟨t,entries,_,replies,hlo,hl,hpg,hn,ha⟩

end

/-- A decoder that knows the record without any field. -/
def decodeEmpty (value : Bytes) : Option Account := if value = [] then some ⟨0,0,0,[]⟩ else none

lemma visit_collect (l x : List (Bytes × Bytes)) : (visit (fun k v x => (false,x ++ [(k,v)])) l x).2 = x ++ l := by
  induction l generalizing x with
  | nil => simp [visit]
  | cons p l ih => simp [visit,ih]

/-- The store after one call on an empty one, with the pairs that a walk over it collects. -/
theorem exists_filled (kvs l : List (Bytes × Bytes)) (hk : kvs.length < 2^32)
    (h : (setKVPair framed none (fun _ => none) none 1 kvs >>= fun r => iterateRangeByStateHash framed none r.1 r.2 none none
      true (fun k v x => (false,x ++ [(k,v)])) []) = .ok l) :
    ∃ db R, setKVPair framed none (fun _ => none) none 1 kvs = .ok (db,R) ∧ Reachable framed none ⟨db,[R],kvs.length⟩ ∧
      kvs.length < capacity ∧ ∀ t es, (Tree.new db none).load framed R = .ok t → Lists t es → es = l := by
  obtain ⟨⟨db,R⟩,hs,hw⟩ := bind_eq_ok.mp h
  have hca : kvs.length < capacity := hk.trans two_pow_lt_capacity
  have hr : Reachable framed none ⟨db,[R],kvs.length⟩ := .call (.init fun _ => none) (.set none 1 kvs) (.inr (.inl rfl)) (by
    simp only [Store.call,hs,ok_bind,pure_eq_ok,zero_add])
  refine ⟨db,R,hs,hr,hca,fun t es hl hli => ?_⟩
  obtain ⟨t',es',hl',hli',hrun⟩ := hr.exists_lists framed_ideal (.inl mem_cons_self) hca
  cases hl.symm.trans hl'
  rw [hrun none none,visit_collect,filter_eq_self.mpr fun p _ => by simp [within]] at hw
  exact (hli.unique hli').trans (Except.ok.inj hw)

/-- An account for each value of one byte, with that balance. -/
def decodeByte (value : Bytes) : Option Account := value.head?.map fun b => ⟨0,b.toNat,0,[]⟩

/-- Three accounts in pages of one. -/
theorem getTotalCoins_pages_three : ∃ db R n replies,
    setKVPair framed none (fun _ => none) none 1 [([2],[20]),([1],[30]),([3],[10])] = .ok (db,R) ∧
    pages (getTotalCoins decodeByte framed none db R none 1) ReplyGetTotalCoins.nextKey n none = .ok (some replies) ∧
    (replies.map ReplyGetTotalCoins.num).sum = 3 ∧ int64 (replies.map ReplyGetTotalCoins.amount).sum = 60 := by
  obtain ⟨db,R,hs,hr,hca,he⟩ := exists_filled [([2],[20]),([1],[30]),([3],[10])]
    [([1],[30]),([2],[20]),([3],[10])] (by decide) (by decide +kernel)
  obtain ⟨t,es,n,replies,hl,hli,hp,hn,ha⟩ := getTotalCoins_pages decodeByte framed_ideal hr (.inl mem_cons_self) hca none none
    le_rfl
  cases he t es hl hli
  exact ⟨db,R,n,replies,hs,hp,hn.trans (by decide +kernel),ha.trans (by decide +kernel)⟩

/-- A value that is no account hides the account behind it: the only page counts nothing. -/
theorem getTotalCoins_hidden :
    (do let (db,R) ← setKVPair framed none (fun _ => none) none 1 [([1],[0]),([2],[])]
        let (_,value,exists_) ← (← (Tree.new db none).load framed R).get [2]
        let reply ← getTotalCoins decodeEmpty framed none db R none 5 none
        return ((decodeEmpty value).isSome && exists_,reply)) =
      (.ok (true,⟨5,0,0,[]⟩) : Result (Bool × ReplyGetTotalCoins)) := by
  decide +kernel

/-! ### Lists of keys -/

structure StoreListReply where
  suffix : Bytes
  count : ℤ
  mode : ℤ
  num : ℤ
  keys : List Bytes
  values : List Bytes
  nextKey : Bytes
  deriving DecidableEq, Repr

def StoreListReply.add (t : StoreListReply) (key value : Bytes) : StoreListReply :=
  {t with num := t.num+1, keys := t.keys ++ [key], values := t.values ++ [value]}

def iterateCallBack (key value : Bytes) (t : StoreListReply) : Bool × StoreListReply :=
  if t.mode = 1 then
    if t.num ≥ t.count then (true,{t with nextKey := key}) else (false,t.add key value)
  else if t.mode = 2 then
    if t.suffix.length < key.length then
      if key.drop (key.length-t.suffix.length) = t.suffix then
        let t := t.add key value
        if t.num ≥ t.count then (true,{t with nextKey := key}) else (false,t)
      else (false,t)
    else (false,t)
  else (true,t)

/-- The last byte below `0xff` is raised; `rev` is the list from its end. -/
def raise : Bytes → Bytes
  | [] => []
  | b :: rev => if b < 0xff then (b+1) :: rev else b :: raise rev

/-- `genPrefixEdge`: nil for the empty key. -/
def genPrefixEdge (pre : Bytes) : Option Bytes :=
  if pre = [] then none else some (raise pre.reverse).reverse

lemma genPrefixEdge_eq {pre : Bytes} (h : pre.getLast? ≠ some 0xff) : genPrefixEdge pre = DB.bytesPrefix pre := by
  rcases eq_nil_or_concat' pre with rfl | ⟨l,b,rfl⟩
  · rfl
  · have hb : b ≠ 0xff := by simpa using h
    have hlt : b < 0xff := lt_of_le_of_ne (UInt8.le_iff_toNat_le.mpr (Nat.le_of_lt_succ b.toNat_lt)) hb
    simp [genPrefixEdge,raise,DB.bytesPrefix,hlt,hb]

/-- The range of a prefix that does not end in `0xff` holds the keys with the prefix. -/
theorem within_edge {pre : Bytes} (h : pre.getLast? ≠ some 0xff) (key : Bytes) :
    within (some pre) (genPrefixEdge pre) false key = true ↔ pre <+: key := by
  rw [genPrefixEdge_eq h,← DB.inRange_bytesPrefix]
  rfl

section
variable [DecidableEq D]

/-- `NewStoreListQuery` and `Run`. -/
def storeList (c : Codec D) (config : Option TreeConfig) (db : HashKey D → Option (StoreNode D))
    (stateHash : Option (HashKey D)) (stop : Option Bytes) (suffix : Bytes) (count mode : ℤ)
    (start : Option Bytes) : Result StoreListReply :=
  iterateRangeByStateHash c config db stateHash start stop true iterateCallBack
    ⟨suffix,count,mode,0,[],[],[]⟩

end

def listed (suffix key : Bytes) : Bool :=
  suffix.length < key.length && key.drop (key.length-suffix.length) = suffix

lemma listed_iff {suffix key : Bytes} : listed suffix key = true ↔ suffix <:+ key ∧ suffix.length < key.length := by
  rw [listed,Bool.and_eq_true,decide_eq_true_eq,decide_eq_true_eq,suffix_iff_eq_drop,and_comm,eq_comm]

section
variable {su : Bytes} {count : ℤ} (t : StoreListReply) {key : Bytes}

lemma iterateCallBack_listed (hm : t.mode = 2) (h : listed t.suffix key = true)
    (v : Bytes) : iterateCallBack key v t =
      if (t.add key v).num ≥ t.count then (true,{t.add key v with nextKey := key})
      else (false,t.add key v) := by
  simp only [listed,Bool.and_eq_true,decide_eq_true_eq] at h
  simp only [iterateCallBack,hm,if_neg (by decide : ¬(2 : ℤ) = 1),if_true,h]
  rfl

lemma iterateCallBack_other (hm : t.mode = 2) (h : listed t.suffix key = false)
    (v : Bytes) : iterateCallBack key v t = (false,t) := by
  simp only [listed,Bool.and_eq_false_iff,decide_eq_false_iff_not] at h
  simp only [iterateCallBack,hm,if_neg (by decide : ¬(2 : ℤ) = 1),if_true]
  rcases h with h | h
  · rw [if_neg h]
  · rw [if_neg h,ite_self]

/-- A page of `r+1` keys takes the first ones with the ending, and the next page is to
start at the last of them. -/
theorem visit_page {t : StoreListReply} (hm : t.mode = 2) (l : List (Bytes × Bytes)) {r : ℕ}
    (hr : t.count = t.num+r+1) : (visit iterateCallBack l t).2 = {t with
        num := t.num+((l.filter fun p => listed t.suffix p.1).take (r+1)).length
        keys := t.keys ++ ((l.filter fun p => listed t.suffix p.1).take (r+1)).map fst
        values := t.values ++ ((l.filter fun p => listed t.suffix p.1).take (r+1)).map snd
        nextKey := ((l.filter fun p => listed t.suffix p.1)[r]?.map fst).getD t.nextKey} := by
  induction l generalizing t r with
  | nil => simp [visit]
  | cons p l ih =>
    cases hp : listed t.suffix p.1 with
    | true =>
      have hc : ((p :: l).filter fun p => listed t.suffix p.1) =
          p :: l.filter fun p => listed t.suffix p.1 := filter_cons_of_pos hp
      cases r with
      | zero =>
        have hl : (t.add p.1 p.2).num ≥ t.count := by simp [StoreListReply.add,hr]
        simp only [visit,iterateCallBack_listed t hm hp,if_pos hl,if_true,hc]
        simp [StoreListReply.add]
      | succ r =>
        have hf : ¬(t.add p.1 p.2).num ≥ t.count := by simp only [StoreListReply.add]; omega
        have hnext := ih (t:=t.add p.1 p.2) (r:=r) hm (by simp only [StoreListReply.add]; omega)
        simp only [visit,iterateCallBack_listed t hm hp,if_neg hf,Bool.false_eq_true,if_false,hnext,hc]
        simp only [StoreListReply.add,take_succ_cons,map_cons,length_cons,
          append_assoc,singleton_append,getElem?_cons_succ]
        push_cast
        ring_nf
    | false =>
      have hc : ((p :: l).filter fun p => listed t.suffix p.1) =
          l.filter fun p => listed t.suffix p.1 := filter_cons_of_neg (by simp [hp])
      simp only [visit,iterateCallBack_other t hm hp,Bool.false_eq_true,if_false,hc]
      exact ih hm hr

end

section
variable {entries : List (Bytes × Bytes)} {suffix : Bytes} {stop : Option Bytes} {r : ℕ}
  {page : Option Bytes → Result StoreListReply}

def listedFrom (entries : List (Bytes × Bytes)) (start stop : Option Bytes) (suffix : Bytes) :
    List (Bytes × Bytes) :=
  (entries.filter fun p => within start stop false p.1).filter fun p => listed suffix p.1

def pageOf (entries : List (Bytes × Bytes)) (start stop : Option Bytes) (suffix : Bytes) (r : ℕ) :
    StoreListReply :=
  ⟨suffix,r+1,2,((listedFrom entries start stop suffix).take (r+1)).length,
    ((listedFrom entries start stop suffix).take (r+1)).map fst,
    ((listedFrom entries start stop suffix).take (r+1)).map snd,
    ((listedFrom entries start stop suffix)[r]?.map fst).getD []⟩

lemma visit_pageOf (sa : Option Bytes) :
    (visit iterateCallBack (entries.filter fun p => within sa stop false p.1)
      ⟨suffix,r+1,2,0,[],[],[]⟩).2 = pageOf entries sa stop suffix r := by
  rw [visit_page (r:=r) rfl _ (by simp),pageOf,zero_add,nil_append,nil_append]
  rfl

end

end Dpos.StorePage
