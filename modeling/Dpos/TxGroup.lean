import Dpos.Outcome
import Dpos.Transaction
import Dpos.Word

/-! Transaction groups: `CreateTxGroup` chains transactions by their hashes, from the last
to the first, `CheckWithFork` checks the chain, and a group travels packed into the header
of its first transaction. The hash of a transaction leaves its header out, so all members
can name the hash of the first. -/
namespace Dpos

open List Word Crypto

inductive TxErr
  | txGroupCountLessThanTwo
  | txGroupParaCount
  | txGroupParaMainMixed
  | txGroupFeeNotZero
  | txGroupHeader
  | txGroupCountBigThanMaxSize
  | txGroupCount
  | txGroupNext
  | txMsgSizeTooBig
  | txFeeTooLow
  | txFeeTooHigh
  | nomalTx
  | decode
  deriving DecidableEq, Repr

def varintLoop : ℕ → ℕ → ℕ
  | 0,_ => 1
  | fuel+1,n => if n < 128 then 1 else varintLoop fuel (n/128)+1

/-- The bytes of a 64-bit number in groups of seven bits. -/
def varintSize (n : ℕ) : ℕ := varintLoop 9 n

/-- A number field of a protobuf message; the tags of transactions take one byte. -/
def intFieldSize (x : ℤ) : ℕ := if x = 0 then 0 else 1+varintSize (x%2^64).toNat

def bytesFieldSize (n : ℕ) : ℕ := if n = 0 then 0 else 1+varintSize n+n

namespace Transaction

def signatureSize : Option Signature → ℕ
  | none => 0
  | some sign =>
    let n := intFieldSize sign.ty+bytesFieldSize sign.pubkey.length+
      bytesFieldSize sign.signature.length
    1+varintSize n+n

def size (tx : Transaction) : ℕ :=
  bytesFieldSize tx.execer.length+bytesFieldSize tx.payload.length+signatureSize tx.signature+
    intFieldSize tx.fee+intFieldSize tx.expire+intFieldSize tx.nonce+
    bytesFieldSize tx.toAddr.length+intFieldSize tx.groupCount+bytesFieldSize tx.header.length+
    bytesFieldSize tx.next.length

/-- The size that is paid for, with room for a signature. -/
def feeSize (tx : Transaction) : ℕ := tx.size+if tx.signature = none then 300 else 0

def maxTxSize : ℕ := 100000

def maxTxGroupSize : ℤ := 20

/-- A fee per thousand bytes, begun ones included. -/
def realFee (minFee : ℤ) (tx : Transaction) : ℤ := wrap 64 ((tx.feeSize/1000+1 : ℕ)*minFee)

def getRealFee (minFee : ℤ) (tx : Transaction) : Except TxErr ℤ :=
  if maxTxSize < tx.feeSize then .error .txMsgSizeTooBig else .ok (tx.realFee minFee)

def check (forkBlockCheck : Bool) (minfee maxFee : ℤ) (tx : Transaction) : Except TxErr Unit :=
  if minfee = 0 then .ok ()
  else do
    let realFee ← tx.getRealFee minfee
    if tx.fee < realFee then .error .txFeeTooLow
    else if maxFee < tx.fee ∧ 0 < maxFee ∧ forkBlockCheck then .error .txFeeTooHigh
    else .ok ()

end Transaction

namespace TxGroup
open Transaction

variable (c : Crypto)

/-- The titles of a group: at most one, and no transaction of the main chain beside it. -/
def checkPara (paraFork : Bool) (txs : List Transaction) : Except TxErr Unit :=
  let para := (txs.filterMap fun tx => getParaExecTitleName tx.execer).dedup
  if paraFork then
    if 1 < para.length then .error .txGroupParaCount
    else if 0 < para.length ∧ ∃ tx ∈ txs, isParaExecName tx.execer = false then
      .error .txGroupParaMainMixed
    else .ok ()
  else .ok ()

/-- The first transaction pays for all. -/
def checkFees (checkFork : Bool) (minfee maxFee : ℤ) : List Transaction → Except TxErr Unit
  | [] => .ok ()
  | head :: txs =>
    if ∃ tx ∈ txs, tx.fee ≠ 0 then .error .txGroupFeeNotZero
    else do
      let fees ← (head :: txs).mapM (getRealFee minfee)
      let totalfee := fees.foldl (fun totalfee fee => wrap 64 (totalfee+fee)) 0
      if head.fee < totalfee then .error .txFeeTooLow
      else if maxFee < head.fee ∧ 0 < maxFee ∧ checkFork then .error .txFeeTooHigh
      else .ok ()

/-- The last loop of `CheckWithFork`. Each `Next` names the member after it, and the last one names
none; nil and empty are one here. -/
def checkChain (header : Bytes) (count : ℤ) : List Transaction → Except TxErr Unit
  | [] => .ok ()
  | tx :: txs =>
    if header ≠ tx.header then .error .txGroupHeader
    else if maxTxGroupSize < tx.groupCount then .error .txGroupCountBigThanMaxSize
    else if tx.groupCount ≠ count then .error .txGroupCount
    else if tx.next ≠ (txs.head?.map (Transaction.hash c)).getD [] then .error .txGroupNext
    else checkChain header count txs

/-- `CheckWithFork`. The transactions are checked one by one without a minimal fee. -/
def checkWithFork (forkBlockCheck checkFork paraFork : Bool) (minfee maxFee : ℤ)
    (txs : List Transaction) : Except TxErr Unit :=
  match txs with
  | head :: tx :: txs => do
    (head :: tx :: txs).forM (check forkBlockCheck 0 maxFee)
    checkPara paraFork (head :: tx :: txs)
    checkFees checkFork minfee maxFee (head :: tx :: txs)
    if head.hash c ≠ head.header then .error .txGroupHeader
    else checkChain c head.header (wrap 32 (txs.length+2)) (head :: tx :: txs)
  | _ => .error .txGroupCountLessThanTwo

/-- The fields `CreateTxGroup` sets, given the members after. The `Next` of the last one stays. -/
def link (header : Bytes) (count fee : ℤ) (rest : List Transaction) (tx : Transaction) : Transaction :=
  {tx with
    groupCount := count
    header := header
    fee := fee
    next := (rest.head?.map (Transaction.hash c)).getD tx.next}

/-- The loop over all but the first transaction, from the last one on: the chained transactions,
their old fees and their fees due. -/
def linkTail (header : Bytes) (count feeRate : ℤ) : List Transaction → Except TxErr (List Transaction × ℤ × ℤ)
  | [] => .ok ([],0,0)
  | tx :: txs => do
    let (rest,totalfee,minfee) ← linkTail header count feeRate txs
    let linked := link c header count 0 rest tx
    let realfee ← linked.getRealFee feeRate
    return (linked :: rest,wrap 64 (totalfee+tx.fee),wrap 64 (minfee+realfee))

/-- `CreateTxGroup`, on separate objects. The first transaction is sized with a fee that takes as
much room as any. -/
def createTxGroup (txs : List Transaction) (feeRate : ℤ) : Except TxErr (List Transaction) :=
  match txs with
  | head :: tx :: txs => do
    let count := wrap 32 (txs.length+2)
    let (rest,totalfee,minfee) ← linkTail c (head.hash c) count feeRate (tx :: txs)
    let realfee ← (link c (head.hash c) count (2^62) rest head).getRealFee feeRate
    let totalfee := wrap 64 (totalfee+head.fee)
    let minfee := wrap 64 (minfee+realfee)
    let fee := if totalfee < minfee then minfee else totalfee
    let paid := link c (head.hash c) count fee rest head
    return (paid :: rest).map fun tx => {tx with header := paid.hash c}
  | _ => .error .txGroupCountLessThanTwo

def tx (encode : List Transaction → Bytes) : List Transaction → Option Transaction
  | head :: tx :: txs => some {head with header := encode (head :: tx :: txs)}
  | _ => none

/-- `Transaction.GetTxGroup`, nil for a transaction on its own. -/
def getTxGroup (decode : Bytes → Option (List Transaction)) (tx : Transaction) :
    Except TxErr (Option (List Transaction)) :=
  if tx.groupCount < 0 ∨ tx.groupCount = 1 ∨ 20 < tx.groupCount then .error .txGroupCount
  else if 0 < tx.groupCount then
    match decode tx.header with
    | none => .error .decode
    | some txs => .ok (some txs)
  else if tx.next ≠ [] ∨ tx.header ≠ [] then .error .nomalTx
  else .ok none

/-- Every transaction names the hash of the one after it, and the last one none. -/
def Linked : List Transaction → Prop
  | [] => True
  | tx :: txs => tx.next = (txs.head?.map (Transaction.hash c)).getD [] ∧ Linked txs

variable {c}

variable {txs : List Transaction} {header : Bytes}

lemma checkChain_eq_ok {count : ℤ} : checkChain c header count txs = .ok () ↔
      Linked c txs ∧ ∀ tx ∈ txs, header = tx.header ∧ tx.groupCount ≤ maxTxGroupSize ∧
        tx.groupCount = count := by
  induction txs with
  | nil => simp [checkChain,Linked]
  | cons tx txs ih =>
    simp only [checkChain,ite_error_eq_ok,ih,Linked,forall_mem_cons,not_lt,not_not]
    tauto

lemma checkWithFork_chain {fbc cf pf : Bool} {m mf : ℤ} (h : checkWithFork c fbc cf pf m mf txs = .ok ()) :
    ∃ head rest, txs = head :: rest ∧ Linked c txs ∧ ∀ tx ∈ txs, tx.header = head.hash c ∧
      tx.groupCount ≤ maxTxGroupSize ∧ tx.groupCount = wrap 32 txs.length := by
  match txs,h with
  | head :: tx :: txs,h =>
    simp only [checkWithFork,bind_eq_ok,ite_error_eq_ok,not_not,checkChain_eq_ok] at h
    obtain ⟨_,_,_,_,_,_,hh,hli,ha⟩ := h
    exact ⟨head,tx :: txs,rfl,hli,fun tx ht => ⟨(ha tx ht).1.symm.trans hh.symm,(ha tx ht).2⟩⟩

lemma Linked.eq_of_hash {txs' : List Transaction} (h : Linked c txs) (h' : Linked c txs')
    (hi : ∀ tx ∈ txs, ∀ tx' ∈ txs', tx.hash c = tx'.hash c → tx.next = tx'.next)
    (hne : ∀ x, c.sha256 x ≠ []) (hhe : txs.head?.map (hash c) = txs'.head?.map (hash c)) :
    txs.map (hash c) = txs'.map (hash c) := by
  induction txs generalizing txs' with
  | nil =>
    match txs' with
    | [] => rfl
  | cons tx txs ih =>
    match txs' with
    | tx' :: txs' =>
      have hh : tx.hash c = tx'.hash c := Option.some.inj hhe
      have hnext := hi tx mem_cons_self tx' mem_cons_self hh
      rw [h.1,h'.1] at hnext
      have hr := ih h.2 h'.2 (fun t ht t' ht' => hi t (mem_cons_of_mem _ ht) t' (mem_cons_of_mem _ ht'))
      rw [map_cons,map_cons,hh,hr]
      -- a digest is not empty, so the chains end together
      match txs,txs' with
      | [],[] => rfl
      | [],t' :: _ => exact absurd hnext.symm (hne _)
      | t :: _,[] => exact absurd hnext (hne _)
      | t :: _,t' :: _ => exact congrArg some hnext

/-- Groups with one header have the same hashes, position by position, when the hashes of
their transactions do not collide. -/
theorem checkWithFork_binds {forkBlockCheck checkFork paraFork forkBlockCheck' checkFork' paraFork' : Bool}
    {minfee maxFee minfee' maxFee' : ℤ} {txs txs' : List Transaction}
    (hi : ∀ tx ∈ txs, ∀ tx' ∈ txs', tx.hash c = tx'.hash c →
      {tx with signature := none,header := []} = {tx' with signature := none,header := []})
    (hne : ∀ x, c.sha256 x ≠ [])
    (h : checkWithFork c forkBlockCheck checkFork paraFork minfee maxFee txs = .ok ())
    (h' : checkWithFork c forkBlockCheck' checkFork' paraFork' minfee' maxFee' txs' = .ok ())
    {tx tx' : Transaction} (htx : tx ∈ txs) (htx' : tx' ∈ txs') (hh : tx.header = tx'.header) :
    txs.length = txs'.length ∧ txs.map (hash c) = txs'.map (hash c) := by
  obtain ⟨head,rest,rfl,hli,ha⟩ := checkWithFork_chain h
  obtain ⟨head',rest',rfl,hli',ha'⟩ := checkWithFork_chain h'
  have hhe : head.hash c = head'.hash c := by rw [← (ha tx htx).1,hh,(ha' tx' htx').1]
  have hnext : ∀ t ∈ head :: rest, ∀ t' ∈ head' :: rest', t.hash c = t'.hash c → t.next = t'.next := by
    intro t ht t' ht' he
    have := congrArg Transaction.next (hi t ht t' ht' he)
    exact this
  have hmap := hli.eq_of_hash hli' hnext hne (congrArg some hhe)
  exact ⟨by simpa using congrArg length hmap,hmap⟩

/-- Two calls of `none` in a group, the first one signed or not. -/
def twoCalls (sign : Option Signature) : List Transaction :=
  let second : Transaction := ⟨Bytes.ofString "none",[2],none,0,0,0,[],2,[],[]⟩
  let first : Transaction := ⟨Bytes.ofString "none",[1],sign,10,0,0,[],2,[],second.hash framed⟩
  [first,second].map fun tx => {tx with header := first.hash framed}

lemma checkWithFork_twoCalls (s : Bool) : checkWithFork framed true true true 1 0
      (twoCalls (if s then some ⟨1,[1],[2]⟩ else none)) = .ok () := by
  cases s <;> decide +kernel

theorem checkWithFork_binds_twoCalls : (twoCalls none).map (hash framed) =
      (twoCalls (some ⟨1,[1],[2]⟩)).map (hash framed) := by
  have hi : ∀ tx ∈ twoCalls none, ∀ tx' ∈ twoCalls (some ⟨1,[1],[2]⟩),
      tx.hash framed = tx'.hash framed →
      {tx with signature := none,header := []} = {tx' with signature := none,header := []} :=
    fun tx _ tx' _ h => framed_ideal.encodeTx_injective (framed_ideal.sha256_injective h)
  have hne : ∀ x, framed.sha256 x ≠ [] := by
    intro x
    simp [framed,frame]
  exact (checkWithFork_binds hi hne (checkWithFork_twoCalls false) (checkWithFork_twoCalls true)
    mem_cons_self mem_cons_self rfl).2

inductive DriverErr
  | txGroupIndex | txGroupCount | txGroupFormat
  | check (e : TxErr)
  deriving DecidableEq, Repr

/-- The loop of the driver's `GetTxGroup`, from an index down to a lowest one. -/
def findHead (isHead : ℕ → Bool) (low : ℤ) : ℕ → Option ℕ
  | 0 => if low ≤ 0 ∧ isHead 0 then some 0 else none
  | i+1 => if (i+1 : ℤ) < low then none else if isHead (i+1) then some (i+1) else findHead isHead low i

section
variable (c : Crypto) (check : List Transaction → Except TxErr Unit) (txs : List Transaction)

/-- Where the header is the hash of the transaction itself. -/
def isHead (i : ℕ) : Bool := txs[i]?.any fun tx => tx.header = tx.hash c

/-- The nearest head at or before an index. -/
def headOf (index : ℕ) (count : ℤ) : Option ℕ := findHead (isHead c txs) (index-count) index

def slice (count : ℤ) (i : ℕ) : List Transaction := (txs.drop i).take count.toNat

/-- There is no result where it slices outside the list. -/
def Driver.getTxGroup (index : ℕ) : Option (Except DriverErr (List Transaction)) :=
  match txs[index]? with
  | none => some (.error .txGroupIndex)
  | some tx =>
    if tx.groupCount ≤ 0 ∨ maxTxGroupSize < tx.groupCount then some (.error .txGroupCount)
    else
      match headOf c txs index tx.groupCount with
      | none => some (.error .txGroupFormat)
      | some i =>
        if txs.length < i+tx.groupCount then none
        else
          match check (slice txs tx.groupCount i) with
          | .error e => some (.error (.check e))
          | .ok _ => some (.ok (slice txs tx.groupCount i))

/-- The transactions of `group` stand together in the list, the one at the index among them. -/
def Around (index : ℕ) (group : List Transaction) : Prop :=
  ∃ before rest, txs = before ++ group ++ rest ∧ before.length ≤ index ∧ index < before.length+group.length

/-- What is expected of `GetTxGroup`. -/
structure GroupSound (index : ℕ) (tx : Transaction) : Prop where
  inside : Driver.getTxGroup c check txs index ≠ none
  passes : ∀ group, Driver.getTxGroup c check txs index = some (.ok group) → check group = .ok () ∧ tx ∈ group
  found : ∀ group, Around txs index group → check group = .ok () → Driver.getTxGroup c check txs index = some (.ok group)

/-- A transaction with a valid count: the group from the nearest head on is not cut off by the end of the list, and the
transaction heads a group itself, or no group of its count that passes ends right before it without an equal one. -/
structure Placed (index : ℕ) (tx : Transaction) : Prop where
  whole : ∀ i ≤ index, isHead c txs i = true → (∀ j, i < j → j ≤ index → isHead c txs j = false) →
    index < i+tx.groupCount → i+tx.groupCount ≤ txs.length
  apart : isHead c txs index = false → ∀ before group rest, txs = before ++ group ++ rest →
    before.length+group.length = index → tx.groupCount = group.length → check group = .ok () → tx ∈ group

end

lemma findHead_eq_some {isHead : ℕ → Bool} {low : ℤ} {n i : ℕ} : findHead isHead low n = some i ↔
    i ≤ n ∧ low ≤ i ∧ isHead i = true ∧ ∀ j, i < j → j ≤ n → isHead j = false := by
  induction n with
  | zero => grind [findHead]
  | succ n ih => grind [findHead]

section
variable {check : List Transaction → Except TxErr Unit} {checkFork paraFork : Bool} {minfee maxFee : ℤ}
  {group : List Transaction}

lemma Linked.drop (h : Linked c group) (n : ℕ) : Linked c (group.drop n) := by
  induction n generalizing group with
  | zero => exact h
  | succ n ih =>
    cases group with
    | nil => exact h
    | cons tx txs => exact ih h.2

lemma Linked.hash_head {head : Transaction} {rest : List Transaction} (h : Linked c (head :: rest))
    (hi : ∀ tx ∈ head :: rest, ∀ tx' ∈ head :: rest, tx.hash c = tx'.hash c → tx.next = tx'.next)
    (hne : ∀ x, c.sha256 x ≠ []) {k : ℕ} {tx : Transaction} (hk : (head :: rest)[k]? = some tx)
    (hh : tx.hash c = head.hash c) : k = 0 := by
  have hm := h.eq_of_hash (h.drop k) (fun t ht t' ht' => hi t ht t' (mem_of_mem_drop ht')) hne
    (by rw [head?_drop,hk]; exact congrArg some hh.symm)
  have hl := congrArg length hm
  simp only [length_map,length_drop,length_cons] at hl
  omega

variable {index : ℕ} {tx : Transaction} (hx : txs[index]? = some tx)
include hx

lemma getTxGroup_eq_none : Driver.getTxGroup c check txs index = none ↔ 0 < tx.groupCount ∧ tx.groupCount ≤ maxTxGroupSize ∧
    ∃ i, headOf c txs index tx.groupCount = some i ∧ txs.length < i+tx.groupCount := by
  simp only [Driver.getTxGroup,hx]
  cases headOf c txs index tx.groupCount with
  | none => split_ifs <;> simp
  | some i => cases check (slice txs tx.groupCount i) <;> grind

lemma getTxGroup_eq_ok : Driver.getTxGroup c check txs index = some (.ok group) ↔
    0 < tx.groupCount ∧ tx.groupCount ≤ maxTxGroupSize ∧ ∃ i, headOf c txs index tx.groupCount = some i ∧
      i+tx.groupCount ≤ txs.length ∧ check (slice txs tx.groupCount i) = .ok () ∧ slice txs tx.groupCount i = group := by
  simp only [Driver.getTxGroup,hx]
  cases headOf c txs index tx.groupCount with
  | none => split_ifs <;> simp
  | some i => cases check (slice txs tx.groupCount i) <;> grind

variable (hk : check = checkWithFork c checkFork checkFork paraFork minfee maxFee) (hne : ∀ x, c.sha256 x ≠ [])
  (hi : ∀ t ∈ txs, ∀ t' ∈ txs, t.hash c = t'.hash c → t.next = t'.next)
include hk hne hi

omit hx in
/-- The head of a group that passes is the nearest one for its members, and for what follows and is no head itself. -/
theorem headOf_group {before rest : List Transaction} {count : ℤ} (ht : txs = before ++ group ++ rest) (hg : check group = .ok ())
    (hb : before.length ≤ index) (hc : index-count ≤ before.length)
    (hle : index < before.length+group.length ∨ before.length+group.length = index ∧ isHead c txs index = false) :
    headOf c txs index count = some before.length := by
  obtain ⟨head,ms,rfl,hli,hm⟩ := checkWithFork_chain (hk ▸ hg)
  have hat : ∀ k < (head :: ms).length, txs[before.length+k]? = (head :: ms)[k]? := by
    intro k hk
    rw [ht,append_assoc,getElem?_append_right (by omega),Nat.add_sub_cancel_left,getElem?_append_left hk]
  refine findHead_eq_some.mpr ⟨hb,hc,?_,fun j hj hji => ?_⟩
  · have h0 : txs[before.length]? = some head := hat 0 (by simp)
    simp [isHead,h0,(hm head mem_cons_self).1]
  · by_cases hj' : j < before.length+(head :: ms).length
    · have ha := hat (j-before.length) (by omega)
      rw [Nat.add_sub_cancel' hj.le] at ha
      rw [isHead,ha,Option.any_eq_false]
      intro t hmt
      rw [decide_eq_false_iff_not,(hm t (mem_of_getElem? hmt)).1]
      intro hh
      have hsub : ∀ t ∈ head :: ms, t ∈ txs := fun t h => ht ▸ mem_append_left _ (mem_append_right _ h)
      have := hli.hash_head (fun t h t' h' => hi t (hsub t h) t' (hsub t' h')) hne hmt hh.symm
      omega
    · obtain ⟨he,hn⟩ := hle.resolve_left (by omega)
      rwa [show j = index by omega]

/-- A group of the list that passes is found from each of its members. -/
theorem getTxGroup_around (hl : txs.length < 2^31) (ha : Around txs index group) (hg : check group = .ok ()) :
    Driver.getTxGroup c check txs index = some (.ok group) := by
  obtain ⟨before,rest,ht,hb,hlt⟩ := ha
  have hle := congrArg length ht
  rw [length_append,length_append] at hle
  have htx : tx ∈ group := by
    refine mem_of_getElem? (i := index-before.length) ?_
    rw [← hx,ht,append_assoc,getElem?_append_right hb,getElem?_append_left (by omega)]
  obtain ⟨head,_,-,-,hm⟩ := checkWithFork_chain (hk ▸ hg)
  obtain ⟨-,hc,hcount⟩ := hm tx htx
  rw [wrap_eq_self (by unfold Word.InRange; omega)] at hcount
  have hs : slice txs tx.groupCount before.length = group := by simp [slice,ht,hcount]
  exact (getTxGroup_eq_ok hx).mpr ⟨by omega,hc,before.length,headOf_group hk hne hi ht hg hb (by omega) (.inl hlt),by omega,
    hs ▸ hg,hs⟩

/-- **`GetTxGroup` of a driver** is as expected exactly if the transaction stands in the list so that no group is
cut off behind the nearest head and no other group is taken for its own. -/
theorem getTxGroup_sound_iff (hl : txs.length < 2^31) : GroupSound c check txs index tx ↔
    (0 < tx.groupCount → tx.groupCount ≤ maxTxGroupSize → Placed c check txs index tx) := by
  constructor
  · refine fun hs h0 h1 => ⟨fun i hii hh hn hlt => not_lt.mp fun hout => hs.inside ?_,fun hn before group rest ht hlen hc hg => ?_⟩
    · exact (getTxGroup_eq_none hx).mpr ⟨h0,h1,i,findHead_eq_some.mpr ⟨hii,by omega,hh,hn⟩,hout⟩
    · have hsl : slice txs tx.groupCount before.length = group := by simp [slice,ht,hc]
      have hle := congrArg length ht
      rw [length_append,length_append] at hle
      exact (hs.passes group ((getTxGroup_eq_ok hx).mpr ⟨h0,h1,before.length,
        headOf_group hk hne hi ht hg (by omega) (by omega) (.inr ⟨hlen,hn⟩),by omega,hsl ▸ hg,hsl⟩)).2
  · intro hp
    refine ⟨fun hn => ?_,fun group hg => ?_,fun group ha hg => getTxGroup_around hx hk hne hi hl ha hg⟩
    · obtain ⟨h0,h1,i,hf,hout⟩ := (getTxGroup_eq_none hx).mp hn
      obtain ⟨hii,hlow,hh,hn⟩ := findHead_eq_some.mp hf
      have := (hp h0 h1).whole i hii hh hn
      have := (List.getElem?_eq_some_iff.mp hx).1
      omega
    · obtain ⟨h0,h1,i,hf,hin,hc,rfl⟩ := (getTxGroup_eq_ok hx).mp hg
      obtain ⟨hii,hlow,hh,hn⟩ := findHead_eq_some.mp hf
      refine ⟨hc,?_⟩
      rcases (show index ≤ i+tx.groupCount by omega).eq_or_lt with he | hlt
      · have hsl : (slice txs tx.groupCount i).length = tx.groupCount.toNat := by
          rw [slice,length_take,length_drop]
          omega
        refine (hp h0 h1).apart (hn index (by omega) le_rfl) (txs.take i) _ ((txs.drop i).drop tx.groupCount.toNat) ?_ ?_ ?_ hc
        · rw [append_assoc,slice,take_append_drop,take_append_drop]
        · rw [hsl,length_take]
          omega
        · omega
      · refine mem_of_getElem? (i := index-i) ?_
        rw [slice,getElem?_take_of_lt (by omega),getElem?_drop,Nat.add_sub_cancel' hii,hx]

end

def stray : Transaction := ⟨Bytes.ofString "none",[3],none,0,0,0,[],2,[],[]⟩

/-- The first of two members is alone at the end of the list; and after both comes a transaction of the same count
that is not of their group. -/
theorem getTxGroup_outside : Driver.getTxGroup framed (checkWithFork framed true true true 1 0)
      ((twoCalls none).take 1) 0 = none ∧
    Driver.getTxGroup framed (checkWithFork framed true true true 1 0)
      (twoCalls none ++ [stray]) 2 = some (.ok (twoCalls none)) ∧ stray ∉ twoCalls none := by decide +kernel

/-- The second member of a group that is not cut off. -/
theorem getTxGroup_sound_twoCalls : ∃ tx, (twoCalls none)[1]? = some tx ∧
    GroupSound framed (checkWithFork framed true true true 1 0) (twoCalls none) 1 tx := by
  refine ⟨_,rfl,(getTxGroup_sound_iff rfl rfl (fun x => by simp [framed,frame]) (fun t _ t' _ h => ?_) (by decide)).mpr
    fun _ _ => ⟨fun i hi h _ _ => ?_,fun _ before group rest ht hl hc _ => ?_⟩⟩
  · have he : {t with signature := none,header := []} = {t' with signature := none,header := []} :=
      framed_ideal.encodeTx_injective (framed_ideal.sha256_injective h)
    injection he
  · have hh : isHead framed (twoCalls none) 1 = false := by decide +kernel
    obtain rfl : i = 0 := by
      by_contra hn
      obtain rfl : i = 1 := by omega
      cases h.symm.trans hh
    decide
  · have hc : (2 : ℤ) = group.length := hc
    omega

lemma varintLoop_le {f k n : ℕ} (h : n < 128^(k+1)) : varintLoop f n ≤ k+1 := by
  induction f generalizing k n with
  | zero => simp [varintLoop]
  | succ f ih =>
    rw [varintLoop]
    split_ifs with hs
    · omega
    · match k with
      | 0 => omega
      | k+1 =>
        have hd : n/128 < 128^(k+1) := by
          rw [Nat.pow_succ] at h
          exact Nat.div_lt_of_lt_mul (by omega)
        have := ih hd
        omega

lemma intFieldSize_le {x : ℤ} (h : 0 ≤ x) (hlt : x < 2^63) : intFieldSize x ≤ 10 := by
  unfold intFieldSize
  split_ifs
  · exact Nat.zero_le _
  · have hm : x%2^64 = x := Int.emod_eq_of_lt h (by omega)
    have hn : (x%2^64).toNat < 128^(8+1) := by
      rw [hm]
      norm_num
      omega
    have := @varintLoop_le 9 8 _ hn
    rw [varintSize]
    omega

lemma intFieldSize_two_pow : intFieldSize (2^62) = 10 := by decide +kernel

/-- No fee takes more room than the one a new group is sized with. -/
theorem feeSize_le {tx : Transaction} (h : 0 ≤ tx.fee) (hlt : tx.fee < 2^63) :
    tx.feeSize ≤ {tx with fee := 2^62}.feeSize := by
  have := intFieldSize_le h hlt
  simp only [feeSize,size,intFieldSize_two_pow]
  omega

lemma feeSize_withHeader {tx : Transaction}
    (h : header.length = tx.header.length) : {tx with header := header}.feeSize = tx.feeSize := by
  simp only [feeSize,size,h]

section
variable {rate : ℤ} {tx : Transaction}

lemma mapM_getRealFee (rate : ℤ) (h : ∀ tx ∈ txs, tx.feeSize ≤ maxTxSize) :
    txs.mapM (getRealFee rate) = .ok (txs.map (realFee rate)) := by
  induction txs with
  | nil => rfl
  | cons tx txs ih =>
    have hs : ¬maxTxSize < tx.feeSize := not_lt.mpr (h tx mem_cons_self)
    rw [mapM_cons,ih fun t ht => h t (mem_cons_of_mem _ ht),getRealFee,if_neg hs]
    rfl

lemma getRealFee_eq_ok {fee : ℤ} (h : tx.getRealFee rate = .ok fee) :
    tx.feeSize ≤ maxTxSize ∧ fee = tx.realFee rate := by
  rw [getRealFee,ite_error_eq_ok] at h
  exact ⟨not_lt.mp h.1,(Except.ok.inj h.2).symm⟩

lemma foldl_wrap (fs : List ℤ) (t : ℤ) : fs.foldl (fun t fee => wrap 64 (t+fee)) (wrap 64 t) =
      wrap 64 (t+fs.sum) := by
  induction fs generalizing t with
  | nil => simp
  | cons fee fs ih => rw [foldl_cons,wrap_wrap_add,ih,sum_cons,add_assoc]

/-- Fee rates at which the fees of a full group stay within an `int64`. -/
def Moderate (rate : ℤ) : Prop := 0 ≤ rate ∧ 2020*rate < 2^63

lemma realFee_eq (hra : Moderate rate) (h : tx.feeSize ≤ maxTxSize) :
    tx.realFee rate = (tx.feeSize/1000+1 : ℕ)*rate ∧ tx.realFee rate ≤ 101*rate := by
  obtain ⟨hp,hlt⟩ := hra
  have hu : ((tx.feeSize/1000+1 : ℕ) : ℤ) ≤ 101 := by
    unfold maxTxSize at h
    omega
  have hle : ((tx.feeSize/1000+1 : ℕ) : ℤ)*rate ≤ 101*rate := mul_le_mul_of_nonneg_right hu hp
  have hg : 0 ≤ ((tx.feeSize/1000+1 : ℕ) : ℤ)*rate := mul_nonneg (by omega) hp
  have he : tx.realFee rate = (tx.feeSize/1000+1 : ℕ)*rate := wrap_eq_self ⟨by omega,by omega⟩
  exact ⟨he,he ▸ hle⟩

lemma realFee_mono (hra : Moderate rate) {tx' : Transaction}
    (hle : tx.feeSize ≤ tx'.feeSize) (h : tx'.feeSize ≤ maxTxSize) :
    tx.realFee rate ≤ tx'.realFee rate := by
  rw [(realFee_eq hra (hle.trans h)).1,(realFee_eq hra h).1]
  apply mul_le_mul_of_nonneg_right _ hra.1
  omega

section
variable (hra : Moderate rate) (h : ∀ tx ∈ txs, tx.feeSize ≤ maxTxSize)
include hra h

lemma sum_realFee_le :
    0 ≤ (txs.map (realFee rate)).sum ∧ (txs.map (realFee rate)).sum ≤ txs.length*(101*rate) := by
  induction txs with
  | nil => simp
  | cons tx txs ih =>
    obtain ⟨hg,hle⟩ := ih fun t ht => h t (mem_cons_of_mem _ ht)
    obtain ⟨he,hf⟩ := realFee_eq hra (h tx mem_cons_self)
    have hp : 0 ≤ tx.realFee rate := he ▸ mul_nonneg (by omega) hra.1
    rw [map_cons,sum_cons,length_cons]
    push_cast
    constructor
    · omega
    · linarith

lemma wrap_sum_realFee
    (hl : txs.length ≤ 20) :
    wrap 64 (txs.map (realFee rate)).sum = (txs.map (realFee rate)).sum := by
  obtain ⟨hg,hle⟩ := sum_realFee_le hra h
  have hm : (txs.length : ℤ)*(101*rate) ≤ 20*(101*rate) := by
    apply mul_le_mul_of_nonneg_right
    · exact_mod_cast hl
    · have := hra.1
      omega
  obtain ⟨hp,hlt⟩ := hra
  exact wrap_eq_self ⟨by omega,by omega⟩

end

end

section
variable {rate count fee : ℤ} {header : Bytes}

/-- What a transaction keeps in a group. -/
def kept (tx : Transaction) : Bytes × Bytes × Bytes := (tx.payload,tx.execer,tx.toAddr)

lemma link_withFee (fee' : ℤ) (rest : List Transaction) (tx : Transaction) :
    {link c header count fee rest tx with fee := fee'} = link c header count fee' rest tx := rfl

lemma link_groupCount (rest : List Transaction) (tx : Transaction) :
    (link c header count fee rest tx).groupCount = count := rfl

variable {rest : List Transaction}

lemma Linked.link {tx : Transaction} (h : Linked c rest) (hl : rest.length = txs.length)
    (hla : ∀ t, (tx :: txs).getLast? = some t → t.next = []) :
    Linked c (link c header count fee rest tx :: rest) := by
  refine ⟨?_,h⟩
  match rest,txs with
  | [],[] => exact hla tx rfl
  | t :: rest,_ => rfl

lemma getLast?_of_cons {α : Type} {P : α → Prop} {a : α} {l : List α}
    (h : ∀ x, (a :: l).getLast? = some x → P x) : ∀ x, l.getLast? = some x → P x :=
  fun x hx => h x (by rw [getLast?_cons,hx]; rfl)

lemma linkTail_spec {te m : ℤ}
    (h : linkTail c header count rate txs = .ok (rest,te,m)) : rest.map kept = txs.map kept ∧
      (∀ t ∈ rest, t.fee = 0 ∧ t.header = header ∧ t.groupCount = count) ∧
      ((∀ tx, txs.getLast? = some tx → tx.next = []) → Linked c rest) ∧ (∀ t ∈ rest, t.feeSize ≤ maxTxSize) ∧
      m = wrap 64 (rest.map (realFee rate)).sum := by
  induction txs generalizing rest te m with
  | nil =>
    obtain ⟨rfl,rfl,rfl⟩ := h
    exact ⟨rfl,by simp,fun _ => trivial,by simp,by simp⟩
  | cons tx txs ih =>
    simp only [linkTail,bind_eq_ok] at h
    obtain ⟨⟨rest',te',m'⟩,ht,r,hf,h⟩ := h
    obtain ⟨rfl,rfl,rfl⟩ := h
    obtain ⟨hk,hs,hli,hsi,rfl⟩ := ih ht
    obtain ⟨hle,rfl⟩ := getRealFee_eq_ok hf
    refine ⟨?_,forall_mem_cons.mpr ⟨⟨rfl,rfl,rfl⟩,hs⟩,?_,forall_mem_cons.mpr ⟨hle,hsi⟩,?_⟩
    · rw [map_cons,map_cons,hk]
      rfl
    · intro hla
      exact (hli (getLast?_of_cons hla)).link (by simpa using congrArg length hk) hla
    · rw [map_cons,sum_cons,wrap_wrap_add,add_comm]

def withHeader (header : Bytes) (txs : List Transaction) : List Transaction :=
  txs.map fun tx => {tx with header := header}

lemma Linked.withHeader (h : Linked c txs) (header : Bytes) : Linked c (withHeader header txs) := by
  induction txs with
  | nil => trivial
  | cons tx txs ih =>
    refine ⟨?_,ih h.2⟩
    rw [h.1]
    cases txs <;> rfl

/-- A created group before its last header is set: the first transaction pays for all, and
was sized with the fee `2^62`. -/
structure Created (c : Crypto) (rate : ℤ) (txs : List Transaction) (paid : Transaction)
    (rest : List Transaction) : Prop where
  keeps : (paid :: rest).map kept = txs.map kept
  count : ∀ t ∈ paid :: rest, t.groupCount = wrap 32 txs.length
  ne_nil : rest ≠ []
  unpaid : ∀ t ∈ rest, t.fee = 0
  header : ∃ header, ∀ t ∈ paid :: rest, t.header = c.sha256 header
  linked : (∀ tx, txs.getLast? = some tx → tx.next = []) → Linked c (paid :: rest)
  sized : ∀ t ∈ {paid with fee := 2^62} :: rest, t.feeSize ≤ maxTxSize
  fee_ge : wrap 64 (({paid with fee := 2^62} :: rest).map (realFee rate)).sum ≤ paid.fee
  fee_lt : paid.fee < 2^63

lemma Created.length_eq {paid : Transaction} (h : Created c rate txs paid rest) : rest.length+1 = txs.length := by
  simpa using congrArg length h.keeps

lemma paidFee_bounds (a b : ℤ) :
    wrap 64 b ≤ (if wrap 64 a < wrap 64 b then wrap 64 b else wrap 64 a) ∧
      (if wrap 64 a < wrap 64 b then wrap 64 b else wrap 64 a) < 2^63 := by
  have ha := (wrap_inRange (by norm_num : 0 < 64) a).2
  have hb := (wrap_inRange (by norm_num : 0 < 64) b).2
  split_ifs with h
  · exact ⟨le_rfl,by omega⟩
  · exact ⟨not_lt.mp h,by omega⟩

variable {group : List Transaction}

lemma createTxGroup_spec (h : createTxGroup c txs rate = .ok group) :
    ∃ paid rest, Created c rate txs paid rest ∧ group = withHeader (paid.hash c) (paid :: rest) := by
  match txs,h with
  | head :: tx :: txs,h =>
    simp only [createTxGroup,bind_eq_ok] at h
    obtain ⟨⟨rest,te,m⟩,hta,r,hf,h⟩ := h
    obtain ⟨hk,hs,hli,hsi,rfl⟩ := linkTail_spec hta
    obtain ⟨hle,rfl⟩ := getRealFee_eq_ok hf
    have hc : (txs.length : ℤ)+2 = ((head :: tx :: txs).length : ℕ) := by
      simp only [length_cons]
      push_cast
      ring
    rw [hc] at hs hle h
    rw [wrap_wrap_add] at h
    obtain ⟨hg,hlt⟩ := paidFee_bounds (te+head.fee) ((rest.map (realFee rate)).sum+
      (link c (head.hash c) (wrap 32 (head :: tx :: txs).length) (2^62) rest head).realFee rate)
    generalize (if wrap 64 (te+head.fee) < _ then _ else _) = fee at h hg hlt
    refine ⟨link c (head.hash c) (wrap 32 (head :: tx :: txs).length) fee rest head,rest,?_,
      (Except.ok.inj h).symm⟩
    exact {
      keeps := by
        rw [map_cons,map_cons,hk]
        rfl
      count := forall_mem_cons.mpr ⟨link_groupCount rest head,fun t ht => (hs t ht).2.2⟩
      ne_nil := by
        rintro rfl
        simp at hk
      unpaid := fun t ht => (hs t ht).1
      header := ⟨_,forall_mem_cons.mpr ⟨rfl,fun t ht => (hs t ht).2.1⟩⟩
      linked := fun hla => (hli (getLast?_of_cons hla)).link
        (by simpa using congrArg length hk) hla
      sized := by
        rw [link_withFee]
        exact forall_mem_cons.mpr ⟨hle,hsi⟩
      fee_ge := by
        rw [link_withFee,map_cons,sum_cons,add_comm]
        exact hg
      fee_lt := hlt}

lemma forM_check (txs : List Transaction) (fbc : Bool) (mf : ℤ) : txs.forM (check fbc 0 mf) = .ok () := by
  induction txs with
  | nil => rfl
  | cons tx txs ih => exact ih

lemma isParaExecName_of_title {e t : Bytes} (h : getParaExecTitleName e = some t) :
    isParaExecName e = true := by
  unfold getParaExecTitleName at h
  split_ifs at h with hp
  exact hp

/-- Transactions of the main chain, or of one title. -/
def OneChain (txs : List Transaction) : Prop :=
  (∀ tx ∈ txs, getParaExecTitleName tx.execer = none) ∨
    ∃ title, ∀ tx ∈ txs, getParaExecTitleName tx.execer = some title

lemma OneChain.checkPara (h : OneChain txs) (pf : Bool) : checkPara pf txs = .ok () := by
  rcases h with h | ⟨ti,h⟩
  · have hn : txs.filterMap (fun tx => getParaExecTitleName tx.execer) = [] := filterMap_eq_nil_iff.mpr h
    simp [TxGroup.checkPara,hn]
  · have hp : ¬∃ tx ∈ txs, isParaExecName tx.execer = false := by
      rintro ⟨tx,htx,hf⟩
      rw [isParaExecName_of_title (h tx htx)] at hf
      cases hf
    have ho : ¬1 < (txs.filterMap fun tx => getParaExecTitleName tx.execer).dedup.length := by
      have hs : (txs.filterMap fun tx => getParaExecTitleName tx.execer).dedup ⊆ [ti] := by
        intro t ht
        obtain ⟨tx,htx,he⟩ := mem_filterMap.mp (mem_dedup.mp ht)
        rw [h tx htx] at he
        exact mem_singleton.mpr (Option.some.inj he).symm
      have := ((nodup_dedup _).subperm hs).length_le
      simpa using this
    simp [TxGroup.checkPara,hp,ho]

lemma kept_withHeader (header : Bytes) (txs : List Transaction) :
    (withHeader header txs).map kept = txs.map kept := by
  rw [withHeader,map_map]
  rfl

lemma OneChain.of_kept (ho : OneChain txs) (h : group.map kept = txs.map kept) : OneChain group := by
  have hi : ∀ txs, OneChain txs ↔ (∀ k ∈ txs.map kept, getParaExecTitleName k.2.1 = none) ∨
      ∃ title, ∀ k ∈ txs.map kept, getParaExecTitleName k.2.1 = some title := fun txs => by
    simp only [OneChain,kept,forall_mem_map]
  rw [hi] at ho ⊢
  rwa [h]

lemma getTxGroup_packed {e : List Transaction → Bytes}
    {d : Bytes → Option (List Transaction)} {head : Transaction}
    (hr : d (e group) = some group) (hc : 2 ≤ head.groupCount) (hle : head.groupCount ≤ 20) :
    getTxGroup d {head with header := e group} = .ok (some group) := by
  rw [getTxGroup,if_neg (by dsimp only; omega),if_pos (by dsimp only; omega)]
  simp only [hr]

section
variable (hsh : ∀ x, (c.sha256 x).length = 32)
include hsh

variable {paid : Transaction}

/-- The sizes at the check: the fee takes no more room than the one it was sized with, and the
header as much as the old one. -/
theorem Created.feeSize_le (h : Created c rate txs paid rest) (hp : 0 ≤ paid.fee) :
    {paid with header := paid.hash c}.feeSize ≤ {paid with fee := 2^62}.feeSize ∧
      ∀ t ∈ rest, {t with header := paid.hash c}.feeSize = t.feeSize := by
  obtain ⟨header,hh⟩ := h.header
  have hl : ∀ t ∈ paid :: rest, (paid.hash c).length = t.header.length := by
    intro t ht
    rw [hh t ht,hsh,Transaction.hash,hsh]
  refine ⟨?_,fun t ht => feeSize_withHeader (hl t (mem_cons_of_mem _ ht))⟩
  rw [feeSize_withHeader (hl paid mem_cons_self)]
  exact TxGroup.feeSize_le hp h.fee_lt

section
variable (h : Created c rate txs paid rest) (hra : Moderate rate) (hl : txs.length ≤ 20)
include h hra hl

lemma Created.fees : (∀ t ∈ withHeader (paid.hash c) (paid :: rest), t.feeSize ≤ maxTxSize) ∧
      ((withHeader (paid.hash c) (paid :: rest)).map (realFee rate)).sum ≤ paid.fee := by
  have hf := h.fee_ge
  rw [wrap_sum_realFee hra h.sized (h.length_eq.trans_le hl)] at hf
  have hp : 0 ≤ paid.fee := (sum_realFee_le hra h.sized).1.trans hf
  obtain ⟨hf1,hr⟩ := h.feeSize_le hsh hp
  obtain ⟨hs,hs'⟩ := forall_mem_cons.mp h.sized
  have hmap : rest.map (fun t => realFee rate {t with header := paid.hash c}) =
      rest.map (realFee rate) := by
    apply map_congr_left
    intro t ht
    rw [realFee,realFee,hr t ht]
  constructor
  · refine forall_mem_cons.mpr ⟨hf1.trans hs,fun t ht => ?_⟩
    obtain ⟨u,hu,rfl⟩ := mem_map.mp ht
    rw [hr u hu]
    exact hs' u hu
  · rw [withHeader,map_map,map_cons,sum_cons]
    change realFee rate {paid with header := paid.hash c}+
      (rest.map (fun t => realFee rate {t with header := paid.hash c})).sum ≤ paid.fee
    rw [hmap]
    rw [map_cons,sum_cons] at hf
    have := realFee_mono hra hf1 hs
    omega

lemma Created.checkFees (cf : Bool) {mf : ℤ} (hm : mf ≤ 0) :
    checkFees cf rate mf (withHeader (paid.hash c) (paid :: rest)) = .ok () := by
  obtain ⟨hs,hf⟩ := h.fees hsh hra hl
  have hl' : (withHeader (paid.hash c) (paid :: rest)).length ≤ 20 := by
    rw [withHeader,length_map]
    exact h.length_eq.trans_le hl
  have hz : ¬∃ tx ∈ rest.map (fun tx => {tx with header := paid.hash c}), tx.fee ≠ 0 := by
    rintro ⟨tx,htx,hne⟩
    obtain ⟨t,ht,rfl⟩ := mem_map.mp htx
    exact hne (h.unpaid t ht)
  have hto := foldl_wrap ((withHeader (paid.hash c) (paid :: rest)).map (realFee rate)) 0
  rw [wrap_zero,zero_add,wrap_sum_realFee hra hs hl'] at hto
  have hma := mapM_getRealFee rate hs
  rw [withHeader,map_cons] at *
  rw [TxGroup.checkFees,if_neg hz]
  simp only [hma,ok_bind]
  rw [hto,if_neg (by simpa using hf),if_neg (by omega)]

end

/-- A group of at most twenty transactions of one chain, the last of which named no next
one, passes the check at the fee rate it was created with, keeps what it was made of, and
comes back from its packed form. -/
theorem createTxGroup_checks {encode : List Transaction → Bytes}
    {decode : Bytes → Option (List Transaction)} (hr : ∀ txs, decode (encode txs) = some txs)
    {txs group : List Transaction} (ho : OneChain txs) (hra : Moderate rate)
    (hl : txs.length ≤ 20) (hla : ∀ tx, txs.getLast? = some tx → tx.next = [])
    (h : createTxGroup c txs rate = .ok group) : (∀ forkBlockCheck checkFork paraFork : Bool, ∀ maxFee ≤ 0,
      checkWithFork c forkBlockCheck checkFork paraFork rate maxFee group = .ok ()) ∧
    group.map kept = txs.map kept ∧
    ∃ packed, tx encode group = some packed ∧ getTxGroup decode packed = .ok (some group) := by
  obtain ⟨paid,rest,hc,rfl⟩ := createTxGroup_spec h
  have hk : (withHeader (paid.hash c) (paid :: rest)).map kept = txs.map kept :=
    (kept_withHeader _ _).trans hc.keeps
  obtain ⟨t,rest,rfl⟩ := exists_cons_of_ne_nil hc.ne_nil
  have hct : txs.length = rest.length+2 := hc.length_eq.symm
  have hw : wrap 32 (rest.length+2) = rest.length+2 := wrap_eq_self ⟨by omega,by omega⟩
  have hs : ∀ u ∈ withHeader (paid.hash c) (paid :: t :: rest),
      paid.hash c = u.header ∧ u.groupCount ≤ maxTxGroupSize ∧
        u.groupCount = wrap 32 (rest.length+2) := by
    intro u hu
    obtain ⟨v,hv,rfl⟩ := mem_map.mp hu
    have hv : v.groupCount = wrap 32 (rest.length+2) := by
      rw [hc.count v hv,hct]
      rfl
    refine ⟨rfl,?_,hv⟩
    change v.groupCount ≤ 20
    omega
  refine ⟨fun forkBlockCheck checkFork paraFork maxFee hm => ?_,hk,_,rfl,?_⟩
  · have hp := (ho.of_kept hk).checkPara paraFork
    have hf := hc.checkFees hsh hra hl checkFork hm
    have hchain := checkChain_eq_ok.mpr ⟨(hc.linked hla).withHeader (paid.hash c),hs⟩
    have hfo := forM_check (withHeader (paid.hash c) (paid :: t :: rest)) forkBlockCheck maxFee
    rw [withHeader,map_cons,map_cons] at hp hf hchain hfo ⊢
    have hlength : (rest.map fun tx => {tx with header := paid.hash c}).length = rest.length := length_map _
    simp only [checkWithFork,hfo,hp,hf,ok_bind,hlength,hchain]
    exact if_neg (not_not.mpr rfl)
  · obtain ⟨_,hle,hh⟩ := hs _ mem_cons_self
    rw [hw] at hh
    exact getTxGroup_packed (hr _) (by omega) hle

end

def frames : List Transaction → Bytes := frameList framed.encodeTx

lemma frames_injective : Function.Injective frames := frameList_injective framed_ideal.encodeTx_injective

def flatCrypto : Crypto := ⟨fun _ => replicate 32 7,fun _ => [],fun _ => [],fun _ _ _ => true⟩

/-- A call of the main chain with a `Next` that may be left from another group. -/
def call (payload next : Bytes) : Transaction := ⟨Bytes.ofString "coins",payload,none,0,0,0,[],0,[],next⟩

lemma exists_ok {ε α β : Type} {x : Except ε α} {f : α → Except ε β} {r : Except ε β}
    (ho : x.isOk = true) (h : (x >>= f) = r) : ∃ a, x = .ok a ∧ f a = r := by
  cases x with
  | ok a => exact ⟨a,rfl,h⟩
  | error e => simp [Except.isOk,Except.toBool] at ho

theorem createTxGroup_checks_two : ∃ group, createTxGroup flatCrypto [call [1] [9],call [2] []] 1 = .ok group ∧
      checkWithFork flatCrypto true true true 1 0 group = .ok () ∧ ∃ packed, tx frames group = some packed ∧
        getTxGroup (Function.partialInv frames) packed = .ok (some group) := by
  obtain ⟨group,hg,_⟩ := @exists_ok TxErr _ _ (createTxGroup flatCrypto [call [1] [9],call [2] []] 1)
    (fun _ => .ok ()) (.ok ()) (by decide +kernel) (by decide +kernel)
  have h := createTxGroup_checks (fun _ => rfl : ∀ x, (flatCrypto.sha256 x).length = 32)
    (fun txs => Function.partialInv_left frames_injective txs)
    (.inl (by decide +kernel)) ⟨by norm_num,by norm_num⟩ (by decide)
    (fun tx ht => by obtain rfl := Option.some.inj ht; rfl) hg
  exact ⟨group,hg,h.1 true true true 0 le_rfl,h.2.2⟩

/-- Twenty-one transactions make a group that is too large for the check, and a `Next`
that is left in the last transaction makes one that is not closed. At a fee rate above a third of
`2^63` the fees of two transactions fit an `int64` and those of three do not: the first transaction counts twice
while the largest fee stands in it, and once with the fee it then gets. -/
theorem createTxGroup_refused : (∃ group, createTxGroup flatCrypto (replicate 21 (call [1] [])) 1 = .ok group ∧
      checkWithFork flatCrypto true true true 1 0 group = .error .txGroupCountBigThanMaxSize) ∧
    (∃ group, createTxGroup flatCrypto [call [1] [],call [2] [9]] 1 = .ok group ∧
      checkWithFork flatCrypto true true true 1 0 group = .error .txGroupNext) ∧
    ∃ group, createTxGroup flatCrypto [call (replicate 610 1) [],call [2] []] (2^63/3+1) = .ok group ∧
      checkWithFork flatCrypto true true true (2^63/3+1) 0 group = .error .txFeeTooLow :=
  ⟨exists_ok (by decide +kernel) (by decide +kernel),exists_ok (by decide +kernel) (by decide +kernel),
    exists_ok (by decide +kernel) (by decide +kernel)⟩

end
end TxGroup
end Dpos
