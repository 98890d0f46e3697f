import Dpos.StorePage

/-! `GetExecBalance`: the balances of an address inside the contracts, read from the
store by listing the keys with a prefix and a suffix. Asked for one contract, the code
cuts the contract address out of the prefix with the length of the other address. -/
namespace Dpos.ExecBalance

open Mavl AccountDB StorePage List

variable {D : Type} {sep : UInt8} {a : Bytes}

lemma length_raise (rev : Bytes) : (raise rev).length = rev.length := by
  induction rev with
  | nil => rfl
  | cons b rev ih =>
    rw [raise]
    split_ifs <;> simp [ih]

/-- The edge keeps the bytes behind the one that is raised, where `bytesPrefix` cuts them off. -/
theorem genPrefixEdge_range_iff (pre : Bytes) :
    ((∀ key, DB.inRange pre (genPrefixEdge pre) key = true ↔ pre <+: key) ∧
      genPrefixEdge pre = DB.bytesPrefix pre) ↔ pre.getLast? ≠ some 0xff := by
  rcases eq_nil_or_concat' pre with rfl | ⟨l,b,rfl⟩
  · simp [genPrefixEdge,DB.bytesPrefix,DB.inRange,DB.nil_le]
  rw [getLast?_concat]
  by_cases hb : b = 0xff
  · -- the edge is as long as the prefix, the limit is shorter
    subst hb
    refine iff_of_false (fun h => ?_) (by simp)
    have he := congrArg (Option.map length) h.2
    have hl := (dropWhile_sublist (· = (255 : UInt8)) (l := l.reverse)).length_le
    cases hd : l.reverse.dropWhile (· = 255) with
    | nil => simp [genPrefixEdge,DB.bytesPrefix,hd] at he
    | cons c rest =>
      simp [genPrefixEdge,DB.bytesPrefix,length_raise,hd] at he hl
      omega
  · rw [genPrefixEdge_eq (by simpa using hb)]
    exact iff_of_true ⟨DB.inRange_bytesPrefix _,rfl⟩ (by simpa using hb)

theorem genPrefixEdge_range_open : DB.inRange [97,255] (genPrefixEdge [97,255]) [98] = true ∧
    ¬[97,255] <+: ([98] : Bytes) ∧ DB.bytesPrefix [97,255] = some [98] := by decide

structure ExecBalanceItem where
  execAddr : Bytes
  frozen : ℤ
  active : ℤ
  deriving DecidableEq, Repr

structure ReplyGetExecBalance where
  amount : ℤ := 0
  amountActive : ℤ := 0
  amountFrozen : ℤ := 0
  items : List ExecBalanceItem := []
  nextKey : Bytes := []
  deriving DecidableEq, Repr

structure ReqGetExecBalance where
  symbol : Bytes
  execer : Bytes
  addr : Bytes
  execAddr : Bytes
  count : ℤ
  nextKey : Bytes

inductive Failure
  | errTypeAsset | sliceBounds
  deriving DecidableEq, Repr

/-- `AddItem`: a value that is no account is skipped. -/
def ReplyGetExecBalance.addItem (decode : Bytes → Option Account) (t : ReplyGetExecBalance)
    (execAddr value : Bytes) : ReplyGetExecBalance :=
  match decode value with
  | none => t
  | some acc =>
    {t with
      amount := int64 (int64 (t.amount+acc.balance)+acc.frozen)
      amountActive := int64 (t.amountActive+acc.balance)
      amountFrozen := int64 (t.amountFrozen+acc.frozen)
      items := t.items ++ [⟨execAddr,acc.frozen,acc.balance⟩]}

def split (sep : UInt8) : Bytes → List Bytes
  | [] => [[]]
  | b :: l =>
    if b = sep then [] :: split sep l
    else match split sep l with
      | [] => [[b]]
      | word :: words => (b :: word) :: words

def symbolPrefix (execer symbol : Bytes) : Bytes :=
  Bytes.ofString "mavl-" ++ execer ++ Bytes.ofString "-" ++ symbol ++ Bytes.ofString "-"

def symbolExecPrefix (execer symbol : Bytes) : Bytes :=
  Bytes.ofString "mavl-" ++ execer ++ Bytes.ofString "-" ++ symbol ++ Bytes.ofString "-exec"

/-- The contract address that is reported for a key. -/
def execAddrOf (pre key : Bytes) : Except Failure Bytes :=
  if ¬pre <+: key then .error .errTypeAsset
  else if Bytes.ofString ":" <:+ pre then
    let addr := key.drop pre.length
    if pre.length < addr.length+1 then .error .sliceBounds
    else .ok ((pre.drop (pre.length-addr.length-1)).take addr.length)
  else
    match split 58 (key.drop pre.length) with
    | [execAddr,_] => .ok execAddr
    | _ => .error .errTypeAsset

def addItems (decode : Bytes → Option Account) (pre : Bytes) :
    List (Bytes × Bytes) → ReplyGetExecBalance → Except Failure ReplyGetExecBalance
  | [], reply => .ok reply
  | (key,value) :: l, reply => do
    addItems decode pre l (reply.addItem decode (← execAddrOf pre key) value)

section Query
variable [DecidableEq D]

def ReqGetExecBalance.pre (req : ReqGetExecBalance) : Bytes :=
  symbolExecPrefix req.execer req.symbol ++ Bytes.ofString "-" ++
    if 0 < req.execAddr.length then req.execAddr ++ Bytes.ofString ":" else []

def getExecBalance (c : Codec D) (config : Option TreeConfig)
    (db : HashKey D → Option (StoreNode D)) (stateHash : Option (HashKey D))
    (decode : Bytes → Option Account) (req : ReqGetExecBalance) :
    Except Failure ReplyGetExecBalance :=
  let start := if 0 < req.nextKey.length then req.nextKey else req.pre
  match storeList c config db stateHash (genPrefixEdge req.pre) req.addr req.count 2 (some start) with
  | .error _ => .error .errTypeAsset
  | .ok res => do
    let reply ← addItems decode req.pre (res.keys.zip res.values) {}
    return {reply with nextKey := res.nextKey}

end Query

lemma split_word (ha : sep ∉ a) : split sep a = [a] := by
  induction a with
  | nil => rfl
  | cons b a ih =>
    rw [mem_cons,not_or] at ha
    rw [split,if_neg (Ne.symm ha.1),ih ha.2]

lemma split_two {e : Bytes} (he : sep ∉ e) (ha : sep ∉ a) :
    split sep (e ++ sep :: a) = [e,a] := by
  induction e with
  | nil => rw [nil_append,split,if_pos rfl,split_word ha]
  | cons b e ih =>
    rw [mem_cons,not_or] at he
    rw [cons_append,split,if_neg (Ne.symm he.1),ih he.2]

section Records
variable (su : Setup) (decode : Bytes → Option Account) (addr : Bytes)

lemma execAccountKey_eq (e : Bytes) :
    execAccountKey su addr e = execAccountKeyPerfix su ++ (e ++ 58 :: addr) := by
  simp [execAccountKey,show Bytes.ofString ":" = [58] from rfl]

/-- The records of the exec accounts are accounts of addresses in contracts, none of which holds a colon. -/
structure ExecAccounts (entries : List (Bytes × Bytes)) : Prop where
  colon : 58 ∉ addr
  record : ∀ p ∈ entries, execAccountKeyPerfix su <+: p.1 → ∃ a e acc,
    p.1 = execAccountKey su a e ∧ e ≠ [] ∧ 58 ∉ e ∧ 58 ∉ a ∧ decode p.2 = some acc

/-- The records of the address. -/
def records (entries : List (Bytes × Bytes)) : List (Bytes × Bytes) :=
  entries.filter fun p => execAccountKeyPerfix su <+: p.1 ∧ 58 :: addr <:+ p.1

/-- The records that the callback takes for those of the address. -/
def taken (entries : List (Bytes × Bytes)) : List (Bytes × Bytes) :=
  entries.filter fun p => execAccountKeyPerfix su <+: p.1 ∧ addr <:+ p.1

/-- The item names the contract address that the record is stored under, and its balances. -/
def Reports (item : ExecBalanceItem) (p : Bytes × Bytes) : Prop :=
  p.1 = execAccountKey su addr item.execAddr ∧
    ∃ acc, decode p.2 = some acc ∧ item.active = acc.balance ∧ item.frozen = acc.frozen

/-- The same for some address. -/
def ReportsSome (item : ExecBalanceItem) (p : Bytes × Bytes) : Prop := ∃ a, 58 ∉ a ∧ Reports su decode a item p

variable {su decode addr} {es : List (Bytes × Bytes)} {e pre : Bytes} {p : Bytes × Bytes}

lemma execAccountKey_inj {e' : Bytes} (h : execAccountKey su addr e = execAccountKey su addr e') : e = e' := by
  rw [execAccountKey_eq,execAccountKey_eq] at h
  exact append_cancel_right (append_cancel_left h)

lemma colon_suffix (a e : Bytes) : 58 :: a <:+ execAccountKey su a e := by
  rw [execAccountKey_eq,← append_assoc]
  exact suffix_append _ _

lemma suffix_execAccountKey (h : 58 ∉ addr) (a e : Bytes) : addr <:+ execAccountKey su a e ↔ addr <:+ a := by
  refine ⟨fun hs => ?_,fun hs => hs.trans ((suffix_cons _ _).trans (colon_suffix a e))⟩
  rcases suffix_or_suffix_of_suffix hs (colon_suffix a e) with hs | hs
  · exact (suffix_cons_iff.mp hs).resolve_left fun he => h (he ▸ mem_cons_self)
  · exact absurd (hs.subset mem_cons_self) h

lemma cons_suffix_execAccountKey (h : 58 ∉ addr) (ha : 58 ∉ a) (e : Bytes) :
    58 :: addr <:+ execAccountKey su a e ↔ a = addr := by
  refine ⟨fun hs => ?_,fun he => he ▸ colon_suffix a e⟩
  have hnot : ∀ {x y : Bytes}, 58 ∉ y → 58 :: x <:+ 58 :: y → x = y := fun hy hs =>
    (cons_inj_right _).mp ((suffix_cons_iff.mp hs).resolve_right fun hs => hy (hs.subset mem_cons_self))
  rcases suffix_or_suffix_of_suffix hs (colon_suffix a e) with hs | hs
  · exact (hnot ha hs).symm
  · exact hnot h hs

lemma listed_execAccountKey (h : 58 ∉ addr) (a e : Bytes) : listed addr (execAccountKey su a e) = true ↔ addr <:+ a := by
  rw [listed_iff,suffix_execAccountKey h]
  exact and_iff_left_of_imp fun hs => hs.length_le.trans_lt (Nat.lt_of_succ_le (colon_suffix a e).length_le)

lemma execAddrOf_listing (hp : ¬Bytes.ofString ":" <:+ pre)
    (he : 58 ∉ e) (ha : 58 ∉ addr) : execAddrOf pre (pre ++ (e ++ 58 :: addr)) = .ok e := by
  rw [execAddrOf,if_neg (not_not.mpr (prefix_append _ _)),if_neg hp,drop_left,
    split_two he ha]

/-- Asked for one contract, the answer has the length of the other address. -/
theorem execAddrOf_contract (base e addr : Bytes) :
    execAddrOf (base ++ e ++ [58]) (base ++ e ++ [58] ++ addr) = .ok e ↔
      e.length = addr.length := by
  have hl : (base ++ e ++ [58]).length = base.length+e.length+1 := by simp [Nat.add_assoc]
  have hc : Bytes.ofString ":" <:+ base ++ e ++ [58] := suffix_append _ [58]
  rw [execAddrOf,if_neg (not_not.mpr (prefix_append _ _)),if_pos hc,drop_left,hl]
  by_cases hs : base.length+e.length+1 < addr.length+1
  · rw [if_pos hs]
    simp only [reduceCtorEq,false_iff]
    omega
  · rw [if_neg hs,Except.ok.injEq]
    constructor
    · intro h
      have := congrArg List.length h
      rw [length_take,length_drop,hl] at this
      omega
    · intro h
      rw [← h,show base.length+e.length+1-e.length-1 = base.length by omega,append_assoc,
        drop_left,take_left]

lemma addItems_spec {l : List (Bytes × Bytes)} {Rel : ExecBalanceItem → Bytes × Bytes → Prop}
    (hl : ∀ p ∈ l, ∃ e acc, execAddrOf pre p.1 = .ok e ∧ decode p.2 = some acc ∧
      Rel ⟨e,acc.frozen,acc.balance⟩ p) (re : ReplyGetExecBalance) :
    ∃ its re', addItems decode pre l re = .ok re' ∧
      re'.items = re.items ++ its ∧ List.Forall₂ Rel its l := by
  induction l generalizing re with
  | nil => exact ⟨[],re,rfl,by simp,.nil⟩
  | cons p l ih =>
    rw [forall_mem_cons] at hl
    obtain ⟨⟨e,acc,he,ha,hr⟩,hl⟩ := hl
    obtain ⟨its,re',hrun,hi,hal⟩ := ih hl (re.addItem decode e p.2)
    refine ⟨⟨e,acc.frozen,acc.balance⟩ :: its,re',?_,?_,.cons hr hal⟩
    · rw [addItems,he]
      exact hrun
    · rw [hi]
      simp [ReplyGetExecBalance.addItem,ha]

lemma perfix_execAccountKey (a e : Bytes) : execAccountKeyPerfix su <+: execAccountKey su a e :=
  execAccountKey_eq su a e ▸ prefix_append _ _

lemma ExecAccounts.mem_records (h : ExecAccounts su decode addr es)
    (hp : p ∈ records su addr es) : ∃ e acc, p.1 = execAccountKey su addr e ∧ e ≠ [] ∧ 58 ∉ e ∧
      decode p.2 = some acc := by
  rw [records,mem_filter,decide_eq_true_eq] at hp
  obtain ⟨a,e,acc,hk,hne,he,ha,hd⟩ := h.record p hp.1 hp.2.1
  obtain rfl : a = addr := (cons_suffix_execAccountKey h.colon ha e).mp (hk ▸ hp.2.2)
  exact ⟨e,acc,hk,hne,he,hd⟩

/-- No record is of another address that ends in the one asked for. -/
def Unmistaken (su : Setup) (addr : Bytes) (entries : List (Bytes × Bytes)) : Prop :=
  ∀ p ∈ entries, ∀ a e, 58 ∉ a → p.1 = execAccountKey su a e → addr <:+ a → a = addr

lemma ExecAccounts.taken_eq_iff (h : ExecAccounts su decode addr es) :
    taken su addr es = records su addr es ↔ Unmistaken su addr es := by
  constructor
  · intro he p hp a e ha hk hs
    have hm : p ∈ records su addr es := he ▸ mem_filter.mpr ⟨hp,by
      rw [hk,decide_eq_true_eq,suffix_execAccountKey h.colon]
      exact ⟨perfix_execAccountKey a e,hs⟩⟩
    obtain ⟨-,hm⟩ := mem_filter.mp hm
    rw [decide_eq_true_eq,hk,cons_suffix_execAccountKey h.colon ha] at hm
    exact hm.2
  · refine fun hu => filter_congr fun p hp => decide_eq_decide.mpr (and_congr_right fun hpre => ?_)
    obtain ⟨a,e,acc,hk,-,-,ha,-⟩ := h.record p hp hpre
    rw [hk,suffix_execAccountKey h.colon,cons_suffix_execAccountKey h.colon ha]
    exact ⟨hu p hp a e ha hk,fun he => he ▸ suffix_refl _⟩

lemma ExecAccounts.eq_of_below (h : ExecAccounts su decode addr es) (hu : Unmistaken su addr es) (hp : p ∈ es)
    (hpr : execAccountKeyPerfix su ++ e ++ [58] <+: p.1) (hs : listed addr p.1 = true) :
    p.1 = execAccountKey su addr e := by
  obtain ⟨a,e',acc,hk,-,he',ha,-⟩ := h.record p hp (((prefix_append _ _).trans (prefix_append _ _)).trans hpr)
  rw [hk,listed_execAccountKey h.colon] at hs
  obtain rfl := hu p hp a e' ha hk hs
  rw [hk]
  rw [hk,execAccountKey_eq,append_assoc,prefix_append_right_inj] at hpr
  obtain ⟨rest,hr⟩ := hpr
  have hr' : e' ++ 58 :: a = e ++ 58 :: rest := by simpa using hr.symm
  rw [((append_cons_inj_of_notMem he' ha).mp hr').1]

end Records

lemma exists_of_mem_forall₂ {α β : Type} {Rel : α → β → Prop} {l : List α} {l' : List β}
    (h : List.Forall₂ Rel l l') {a : α} (ha : a ∈ l) : ∃ b ∈ l', Rel a b := by
  induction h with
  | nil => simp at ha
  | cons hr _ ih =>
    rcases mem_cons.mp ha with rfl | ha
    · exact ⟨_,mem_cons_self,hr⟩
    · obtain ⟨b,hb,hr'⟩ := ih ha
      exact ⟨b,mem_cons_of_mem _ hb,hr'⟩

section Answers
variable [DecidableEq D] {c : Codec D} {co : Option TreeConfig}
  {db : HashKey D → Option (StoreNode D)} {R : Option (HashKey D)} {su : Setup}
  {d : Bytes → Option Account} {addr ex s : Bytes} {entries : List (Bytes × Bytes)}
  {r : ℕ}

lemma symbolExecPrefix_eq (hsu : su.accountKeyPerfix = symbolPrefix ex s) :
    symbolExecPrefix ex s ++ Bytes.ofString "-" = execAccountKeyPerfix su := by
  simp [execAccountKeyPerfix,hsu,symbolPrefix,symbolExecPrefix,
    show Bytes.ofString "-exec" = [45,101,120,101,99] from rfl,
    show Bytes.ofString "exec-" = [101,120,101,99,45] from rfl,
    show Bytes.ofString "-" = [45] from rfl]

lemma getExecBalance_page {req : ReqGetExecBalance} (hnext : req.nextKey = [])
    (hpa : storeList c co db R (genPrefixEdge req.pre) req.addr req.count 2 (some req.pre) =
      .ok (pageOf entries (some req.pre) (genPrefixEdge req.pre) req.addr r)) :
    getExecBalance c co db R d req = do
      let reply ← addItems d req.pre
        ((listedFrom entries (some req.pre) (genPrefixEdge req.pre) req.addr).take (r+1)) {}
      return {reply with nextKey := (pageOf entries (some req.pre) (genPrefixEdge req.pre) req.addr r).nextKey} := by
  have hz : ∀ l : List (Bytes × Bytes), (l.map Prod.fst).zip (l.map Prod.snd) = l := fun l => (zip_of_prod rfl rfl).symm
  simp only [getExecBalance,hnext,length_nil,lt_irrefl,if_false,hpa,pageOf,hz]

variable (hsu : su.accountKeyPerfix = symbolPrefix ex s)
  (hpa : ∀ pre, storeList c co db R (genPrefixEdge pre) addr (r+1) 2 (some pre) =
    .ok (pageOf entries (some pre) (genPrefixEdge pre) addr r))
  (h : ExecAccounts su d addr entries)
include hsu hpa h

/-- Without a contract address, each record that is taken is reported as one of the address. -/
theorem getExecBalance_all (hro : (taken su addr entries).length ≤ r+1) :
    ∃ re, getExecBalance c co db R d ⟨s,ex,addr,[],r+1,[]⟩ = .ok re ∧
      List.Forall₂ (ReportsSome su d) re.items (taken su addr entries) := by
  have hpr : (⟨s,ex,addr,[],r+1,[]⟩ : ReqGetExecBalance).pre = execAccountKeyPerfix su := by
    simp [ReqGetExecBalance.pre,← symbolExecPrefix_eq hsu]
  obtain ⟨base,hb⟩ : ∃ base, execAccountKeyPerfix su = base ++ [45] := ⟨_,(symbolExecPrefix_eq hsu).symm⟩
  have hl : listedFrom entries (some (execAccountKeyPerfix su))
      (genPrefixEdge (execAccountKeyPerfix su)) addr = taken su addr entries := by
    rw [listedFrom,filter_filter]
    refine filter_congr fun p hp => ?_
    rw [Bool.eq_iff_iff,Bool.and_eq_true,decide_eq_true_eq,within_edge (by simp [hb]),and_comm]
    refine and_congr_right fun hpre => ?_
    obtain ⟨a,e,acc,hk,-⟩ := h.record p hp hpre
    rw [hk,listed_execAccountKey h.colon,suffix_execAccountKey h.colon]
  have hen : ¬Bytes.ofString ":" <:+ execAccountKeyPerfix su := by
    rw [hb,show Bytes.ofString ":" = [58] from rfl,← reverse_prefix]
    simp
  have hea : ∀ p ∈ taken su addr entries, ∃ e acc, execAddrOf (execAccountKeyPerfix su) p.1 = .ok e ∧ d p.2 = some acc ∧
      ReportsSome su d ⟨e,acc.frozen,acc.balance⟩ p := fun p hp => by
    rw [taken,mem_filter,decide_eq_true_eq] at hp
    obtain ⟨a,e,acc,hk,-,he,ha,hd⟩ := h.record p hp.1 hp.2.1
    refine ⟨e,acc,?_,hd,a,ha,hk,acc,hd,rfl,rfl⟩
    rw [hk,execAccountKey_eq]
    exact execAddrOf_listing hen he ha
  obtain ⟨its,re,hrun,hi,hal⟩ := addItems_spec hea {}
  refine ⟨_,by rw [getExecBalance_page rfl (hpa _),hpr,hl,take_of_length_le hro,hrun]; rfl,?_⟩
  simpa only [hi,nil_append] using hal

/-- Asked for the contract of a record, the answer is that record if the two addresses
are of one length. -/
theorem getExecBalance_one (hs : entries.Pairwise fun p q => p.1 < q.1) (hu : Unmistaken su addr entries)
    {i : ExecBalanceItem} {p : Bytes × Bytes} (hp : p ∈ records su addr entries)
    (hit : Reports su d addr i p) :
    (∃ re, getExecBalance c co db R d ⟨s,ex,addr,i.execAddr,r+1,[]⟩ =
        .ok re ∧ re.items = [i]) ↔ i.execAddr.length = addr.length := by
  obtain ⟨e,acc,hk,hne,he,ha⟩ := h.mem_records hp
  obtain rfl : i.execAddr = e := execAccountKey_inj (hit.1.symm.trans hk)
  have hpr : (⟨s,ex,addr,i.execAddr,r+1,[]⟩ : ReqGetExecBalance).pre =
      execAccountKeyPerfix su ++ i.execAddr ++ [58] := by
    rw [ReqGetExecBalance.pre,if_pos (length_pos_iff.mpr hne),symbolExecPrefix_eq hsu,
      append_assoc]
    rfl
  generalize hP : execAccountKeyPerfix su ++ i.execAddr ++ [58] = P at hpr
  have hke : p.1 = P ++ addr := by rw [hk,← hP]; rfl
  have hm : p ∈ entries := (mem_filter.mp hp).1
  have hn : (entries.map Prod.fst).Nodup := (pairwise_map.mpr hs).imp fun h => ne_of_lt h
  have hli : listedFrom entries (some P) (genPrefixEdge P) addr = [p] := by
    have hran : listedFrom entries (some P) (genPrefixEdge P) addr = entries.filter fun q => q = p := by
      rw [listedFrom,filter_filter]
      refine filter_congr fun q hq => ?_
      rw [Bool.eq_iff_iff,Bool.and_eq_true,decide_eq_true_eq,within_edge (by simp [← hP])]
      constructor
      · rintro ⟨hl,hq'⟩
        exact inj_on_of_nodup_map hn hq hm ((h.eq_of_below hu hq (hP ▸ hq') hl).trans hk.symm)
      · rintro rfl
        exact ⟨hk ▸ (listed_execAccountKey h.colon addr _).mpr (suffix_refl _),hke ▸ prefix_append _ _⟩
    rw [hran,filter_eq,count_eq_one_of_mem hn.of_map hm]
    rfl
  rw [getExecBalance_page rfl (hpa _),hpr,hli,take_of_length_le (by simp),← hP,addItems,
    hke,← hP]
  have had := execAddrOf_contract (execAccountKeyPerfix su) i.execAddr addr
  constructor
  · rintro ⟨re,hrun,hi⟩
    refine had.mp ?_
    cases hx : execAddrOf (execAccountKeyPerfix su ++ i.execAddr ++ [58])
        (execAccountKeyPerfix su ++ i.execAddr ++ [58] ++ addr) with
    | error err => rw [hx] at hrun; cases hrun
    | ok e =>
      rw [hx] at hrun
      cases hrun
      simp only [ReplyGetExecBalance.addItem,ha,nil_append,List.cons.injEq,and_true] at hi
      rw [← hi]
  · intro hle
    rw [had.mpr hle]
    refine ⟨_,rfl,?_⟩
    obtain ⟨acc',ha',hat,hf⟩ := hit.2
    simp [ReplyGetExecBalance.addItem,ha',← hat,← hf]

end Answers

/-- All exec accounts of an address are reported with their contract addresses and balances, and the answer for each
single contract is the same record, exactly if no other address with a record ends in the address, and every contract
address is as long as the address. The records that end in the address have room in one page. -/
theorem getExecBalance_iff {D : Type} [DecidableEq D] {c : Codec D} {config : Option TreeConfig}
    {s : Store D} {R : Option (HashKey D)} (hc : c.Ideal) (hs : Reachable c config s)
    (hR : s.Known c R) (hca : s.written < capacity) (su : Setup) (decode : Bytes → Option Account)
    (addr execer symbol : Bytes) (hsu : su.accountKeyPerfix = symbolPrefix execer symbol) {count : ℤ}
    (hct : 1 ≤ count) :
    ∃ t entries, (Tree.new s.db config).load c R = .ok t ∧ Lists t entries ∧
      (ExecAccounts su decode addr entries → ((taken su addr entries).length : ℤ) ≤ count →
        ((∃ reply, getExecBalance c config s.db R decode ⟨symbol,execer,addr,[],count,[]⟩ = .ok reply ∧
          List.Forall₂ (Reports su decode addr) reply.items (records su addr entries) ∧
          ∀ item ∈ reply.items, ∃ one, getExecBalance c config s.db R decode
            ⟨symbol,execer,addr,item.execAddr,count,[]⟩ = .ok one ∧ one.items = [item]) ↔
        Unmistaken su addr entries ∧
          ∀ p ∈ records su addr entries, ∀ e, p.1 = execAccountKey su addr e → e.length = addr.length)) := by
  obtain ⟨t,entries,hlo,hl,hrun⟩ := hs.exists_lists hc hR hca
  obtain ⟨r,rfl⟩ : ∃ r : ℕ, count = r+1 := ⟨(count-1).toNat,by omega⟩
  have hpa : ∀ pre, storeList c config s.db R (genPrefixEdge pre) addr (r+1) 2 (some pre) =
      .ok (pageOf entries (some pre) (genPrefixEdge pre) addr r) := fun pre =>
    (hrun (some pre) (genPrefixEdge pre) _ iterateCallBack _).trans
      (congrArg Except.ok (visit_pageOf (some pre)))
  refine ⟨t,entries,hlo,hl,fun h hro => ?_⟩
  obtain ⟨reply,hr,ha⟩ := getExecBalance_all hsu hpa h (by omega)
  constructor
  · rintro ⟨reply',hr',ha',ho⟩
    obtain rfl : reply = reply' := by simpa using hr.symm.trans hr'
    have hsub : (records su addr entries).Sublist (taken su addr entries) :=
      monotone_filter_right _ fun p hp => by
        rw [decide_eq_true_eq] at hp ⊢
        exact ⟨hp.1,(suffix_cons _ _).trans hp.2⟩
    have hu := h.taken_eq_iff.mp (hsub.eq_of_length (ha'.length_eq.symm.trans ha.length_eq)).symm
    refine ⟨hu,fun p hp e hk => ?_⟩
    obtain ⟨item,hi,hrp⟩ := exists_of_mem_forall₂ ha'.flip hp
    obtain rfl : item.execAddr = e := execAccountKey_inj (hrp.1.symm.trans hk)
    exact (getExecBalance_one hsu hpa h hl.sorted hu hp hrp).mp (ho item hi)
  · rintro ⟨hu,hlength⟩
    rw [h.taken_eq_iff.mpr hu] at ha
    have ha' : List.Forall₂ (Reports su decode addr) reply.items (records su addr entries) := by
      refine forall₂_iff_zip.mpr ⟨ha.length_eq,fun {item p} hz => ?_⟩
      obtain ⟨a,hna,hre⟩ := forall₂_zip ha hz
      obtain ⟨-,hm⟩ := mem_filter.mp (of_mem_zip hz).2
      rw [decide_eq_true_eq,hre.1,cons_suffix_execAccountKey h.colon hna] at hm
      exact hm.2 ▸ hre
    refine ⟨reply,hr,ha',fun item hi => ?_⟩
    obtain ⟨p,hp,hrp⟩ := exists_of_mem_forall₂ ha' hi
    exact (getExecBalance_one hsu hpa h hl.sorted hu hp hrp).mpr (hlength p hp _ hrp.1)

def coins : Setup := ⟨symbolPrefix (Bytes.ofString "coins") (Bytes.ofString "dpos"),[],id,id,[]⟩

/-- Users with their contracts. -/
def users : List (Bytes × Bytes) := [([85],[77]),([86],[77]),([85],[78])]

def execPairs : List (Bytes × Bytes) := users.map fun u => (execAccountKey coins u.1 u.2,[])

/-- The user `U` in the contracts `M` and `N`, and the user `V` in the contract `M`. -/
theorem getExecBalance_iff_two : ∃ db R reply, setKVPair Codec.framed none (fun _ => none) none 1 execPairs = .ok (db,R) ∧
    getExecBalance Codec.framed none db R decodeEmpty
      ⟨Bytes.ofString "dpos",Bytes.ofString "coins",[85],[],3,[]⟩ = .ok reply ∧
    List.Forall₂ (Reports coins decodeEmpty [85]) reply.items (records coins [85] execPairs) ∧
    ∀ item ∈ reply.items, ∃ one, getExecBalance Codec.framed none db R decodeEmpty
      ⟨Bytes.ofString "dpos",Bytes.ofString "coins",[85],item.execAddr,3,[]⟩ = .ok one ∧ one.items = [item] := by
  obtain ⟨db,R,hs,hr,hca,he⟩ := exists_filled execPairs execPairs (by decide) (by decide +kernel)
  obtain ⟨t,es,hl,hli,hiff⟩ := getExecBalance_iff Codec.framed_ideal hr (.inl mem_cons_self) hca coins decodeEmpty
    [85] _ _ rfl
    (by decide : (1 : ℤ) ≤ 3)
  obtain rfl := he t es hl hli
  have hus : ∀ u ∈ users, u.2 ≠ [] ∧ 58 ∉ u.2 ∧ 58 ∉ u.1 ∧ ([85] <:+ u.1 → u.1 = [85]) ∧ u.2.length = 1 := by decide
  have hex : ExecAccounts coins decodeEmpty [85] execPairs := by
    refine ⟨by decide,fun p hp _ => ?_⟩
    obtain ⟨u,hu,rfl⟩ := mem_map.mp hp
    obtain ⟨hne,he,ha,-⟩ := hus u hu
    exact ⟨u.1,u.2,_,rfl,hne,he,ha,rfl⟩
  -- a key has one user and one contract
  have hkey : ∀ p ∈ execPairs, ∀ a e, 58 ∉ a → p.1 = execAccountKey coins a e → (a,e) ∈ users := fun p hp a e ha hk => by
    obtain ⟨u,hu,rfl⟩ := mem_map.mp hp
    obtain rfl := (cons_suffix_execAccountKey ha (hus u hu).2.2.1 u.2).mp (hk ▸ colon_suffix a e)
    exact execAccountKey_inj hk ▸ hu
  obtain ⟨reply,hre,ha,ho⟩ := (hiff hex (by decide +kernel)).mpr
    ⟨fun p hp a e ha hk => (hus _ (hkey p hp a e ha hk)).2.2.2.1,fun p hp e hk =>
      (hus _ (hkey p (mem_of_mem_filter hp) _ e hex.colon hk)).2.2.2.2⟩
  exact ⟨db,R,reply,hs,hre,ha,ho⟩

/-- The user `UU` in the contract `M`: the list names the contract, the query for the
contract does not, and the user `U` has the account too. -/
theorem getExecBalance_wrong_contract :
    (do let (db,R) ← (setKVPair Codec.framed none (fun _ => none) none 1
            [(execAccountKey coins [85,85] [77],[])]).mapError fun _ => Failure.errTypeAsset
        let query := fun addr execAddr => getExecBalance Codec.framed none db R decodeEmpty
          ⟨Bytes.ofString "dpos",Bytes.ofString "coins",addr,execAddr,3,[]⟩
        return ((← query [85,85] []).items,(← query [85,85] [77]).items,(← query [85] []).items)) =
      (.ok ([⟨[77],0,0⟩],[⟨[45,77],0,0⟩],[⟨[77],0,0⟩]) : Except Failure _) := by
  decide +kernel

end Dpos.ExecBalance
