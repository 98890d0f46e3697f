import Dpos.AccountRun

/-! The receipts of the account operations. Block state is built from the key-value
pairs of receipts only, so a receipt has to repeat every write of its operation, in
an order in which the later one wins; and its logs have to tell the records as they
were before and as they are after the operation. -/
namespace Dpos.AccountDB
open Function List

/-- A call of one of the thirteen operations, with any texts as addresses. -/
inductive Request
  | transfer (fromAddr toAddr : Bytes) (amount : ℤ)
  | mint (addr : Bytes) (amount : ℤ)
  | burn (addr : Bytes) (amount : ℤ)
  | genesisInit (addr : Bytes) (amount : ℤ)
  | genesisInitExec (addr : Bytes) (amount : ℤ) (execaddr : Bytes)
  | execIssueCoins (execaddr : Bytes) (amount : ℤ)
  | transferToExec (fromAddr toAddr : Bytes) (amount : ℤ)
  | transferWithdraw (fromAddr toAddr : Bytes) (amount : ℤ)
  | execFrozen (addr execaddr : Bytes) (amount : ℤ)
  | execActive (addr execaddr : Bytes) (amount : ℤ)
  | execTransfer (fromAddr toAddr execaddr : Bytes) (amount : ℤ)
  | execTransferFrozen (fromAddr toAddr execaddr : Bytes) (amount : ℤ)
  | execDepositFrozen (addr execaddr : Bytes) (amount : ℤ)

def Request.call (su : Setup) : Request → M Receipt
  | .transfer a b x => AccountDB.transfer su a b x
  | .mint a x => AccountDB.mint su a x
  | .burn a x => AccountDB.burn su a x
  | .genesisInit a x => AccountDB.genesisInit su a x
  | .genesisInitExec a x e => AccountDB.genesisInitExec su a x e
  | .execIssueCoins e x => AccountDB.execIssueCoins su e x
  | .transferToExec a e x => AccountDB.transferToExec su a e x
  | .transferWithdraw a e x => AccountDB.transferWithdraw su a e x
  | .execFrozen a e x => AccountDB.execFrozen su a e x
  | .execActive a e x => AccountDB.execActive su a e x
  | .execTransfer a b e x => AccountDB.execTransfer su a b e x
  | .execTransferFrozen a b e x => AccountDB.execTransferFrozen su a b e x
  | .execDepositFrozen a e x => AccountDB.execDepositFrozen su a e x

def Op.request : Op → Request
  | .transfer a b x => .transfer a.text b.text x
  | .mint a x => .mint a.text x
  | .burn a x => .burn a.text x
  | .genesisInit a x => .genesisInit a.text x
  | .genesisInitExec a x e => .genesisInitExec a.text x e.text
  | .execIssueCoins e x => .execIssueCoins e.text x
  | .transferToExec a e x => .transferToExec a.text e.text x
  | .transferWithdraw a e x => .transferWithdraw a.text e.text x
  | .execFrozen a e x => .execFrozen a.text e.text x
  | .execActive a e x => .execActive a.text e.text x
  | .execTransfer a b e x => .execTransfer a.text b.text e.text x
  | .execTransferFrozen a b e x => .execTransferFrozen a.text b.text e.text x
  | .execDepositFrozen a e x => .execDepositFrozen a.text e.text x

lemma Op.request_call (su : Setup) (op : Op) : op.request.call su = op.call su := by
  cases op <;> rfl

lemma setAll_append (db : KVDB) (set set' : List KV) :
    setAll db (set ++ set') = setAll (setAll db set) set' := by
  rw [setAll,foldl_append]
  rfl

/-- The pairs of the receipt lead from the one state to the other. -/
def Replays (db : KVDB) (r : Receipt) (db' : KVDB) : Prop := setAll db r.kv = db'

section
variable {su : Setup} {db : KVDB} (set : List KV) (a e : Bytes) (x : ℤ)

lemma replays_save (ls : List ReceiptLog) :
    Leads (· = db) (saveKVSet set >>= fun _ => pure ⟨set,ls⟩ : M Receipt) (Replays db) :=
  .bind (.modify fun _ hs => hs ▸ rfl) fun _ => .pure fun _ (hs : setAll db set = _) => hs

lemma replays_saveTwo (set' : List KV) (ls : List ReceiptLog) :
    Leads (· = db) (saveKVSet set >>= fun _ => saveKVSet set' >>= fun _ =>
      pure ⟨set ++ set',ls⟩ : M Receipt) (Replays db) := by
  refine .bind (Q:=fun _ s => setAll db set = s) (.modify fun _ hs => hs ▸ rfl) fun _ =>
    .bind (Q:=fun _ s => setAll (setAll db set) set' = s) (.modify fun _ hs => hs ▸ rfl) fun _ => ?_
  exact .pure fun s hs => (setAll_append db set set').trans hs

lemma replays_merge {m1 m2 : M Receipt} (h1 : Leads (· = db) m1 (Replays db))
    (h2 : ∀ db1, Leads (· = db1) m2 (Replays db1)) :
    Leads (· = db) (m1 >>= fun r1 => m2 >>= fun r2 => pure (mergeReceipt r1 r2)) (Replays db) := by
  refine .bind h1 fun r1 => .bind (Q:=fun r2 s => setAll (setAll db r1.kv) r2.kv = s)
    (fun s r2 s' hs he => ?_) fun r2 => ?_
  · obtain rfl : setAll db r1.kv = s := hs
    exact h2 _ _ r2 s' rfl he
  · exact .pure fun s hs => (setAll_append db r1.kv r2.kv).trans hs

lemma transfer_replays (b : Bytes) (x : ℤ) : Leads (· = db) (transfer su a b x) (Replays db) :=
  .guard <| .reads_at (.reads_at (.guard <| .guard <|
    replays_saveTwo _ _ _))

lemma depositBalance_replays : Leads (· = db) (depositBalance su e x) (Replays db) :=
  .guard <| .reads_at (replays_save _ _)

lemma genesisInit_replays : Leads (· = db) (genesisInit su a x) (Replays db) :=
  .reads_at (.demand_then fun _ _ => replays_save _ _)

lemma depositFrozen_replays : Leads (· = db) (depositFrozen su a e x) (Replays db) :=
  .guard <| .guard <| .reads_at (replays_save _ _)

lemma execDeposit_replays : Leads (· = db) (execDeposit su a e x) (Replays db) :=
  .guard <| .guard <| .reads_at (replays_save _ _)

lemma execWithdraw_replays (a : Bytes) (x : ℤ) : Leads (· = db) (execWithdraw su e a x) (Replays db) :=
  .guard <| .guard <| .reads_at (.guard <| replays_save _ _)

lemma checkTransfer_leads : Leads (· = db) (checkTransfer su e x) fun _ s => s = db :=
  .guard <| .reads_at (.failIf fun _ _ hs => hs)

/-- Every receipt repeats the writes of its operation, in their order. -/
theorem Request.replays (req : Request) : Leads (· = db) (req.call su) (Replays db) := by
  cases req with
  | transfer a b x => exact transfer_replays a b x
  | mint a x => exact .guard <| .reads_at (.demand_then fun _ _ => replays_save _ _)
  | burn a x => exact .guard <| .reads_at (.guard <| replays_save _ _)
  | genesisInit a x => exact genesisInit_replays a x
  | genesisInitExec a x e =>
    exact replays_merge (genesisInit_replays e x) fun _ => (execDeposit_replays a e x).adapt _
  | execIssueCoins e x => exact .guard <| depositBalance_replays e x
  | transferToExec a e x =>
    exact replays_merge (transfer_replays a e x) fun _ => (execDeposit_replays a e x).adapt _
  | transferWithdraw a e x =>
    exact .bind (checkTransfer_leads e x) fun _ =>
      replays_merge (execWithdraw_replays e a x) fun _ => (transfer_replays e a x).adapt _
  | execFrozen a e x
  | execActive a e x =>
    exact .guard <| .guard <| .reads_at (.guard <| replays_save _ _)
  | execTransfer a b e x
  | execTransferFrozen a b e x =>
    exact .guard <| .guard <| .reads_at (.reads_at (.guard <|
      replays_saveTwo _ _ _))
  | execDepositFrozen a e x =>
    exact .guard <| replays_merge (.guard <| depositBalance_replays e x)
      fun _ => depositFrozen_replays a e x

end

/-! ### The logs of a receipt -/

namespace LogData

def prev : LogData → Account
  | .accountTransfer prev _ => prev
  | .execAccountTransfer _ prev _ => prev
  | .accountMint prev _ => prev
  | .accountBurn prev _ => prev

def current : LogData → Account
  | .accountTransfer _ current => current
  | .execAccountTransfer _ _ current => current
  | .accountMint _ current => current
  | .accountBurn _ current => current

/-- The key of the account that the log is about. -/
def key (su : Setup) : LogData → Bytes
  | .accountTransfer prev _ => accountKey su prev.addr
  | .execAccountTransfer execAddr prev _ => execAccountKey su prev.addr execAddr
  | .accountMint prev _ => accountKey su prev.addr
  | .accountBurn prev _ => accountKey su prev.addr

/-- The log tells the record before and after. A missing record reads as an empty one. -/
def Matches (su : Setup) (db db' : KVDB) (d : LogData) : Prop :=
  (db (d.key su)).getD ⟨0,0,0,d.prev.addr⟩ = d.prev ∧ db' (d.key su) = some d.current ∧
    d.current.addr = d.prev.addr

instance matchesDecidable (su : Setup) (db db' : KVDB) (d : LogData) : Decidable (d.Matches su db db') :=
  inferInstanceAs (Decidable (_ ∧ _ ∧ _))

end LogData

section
variable (su : Setup)

/-- The holders are the only ones whose records change, each log is about one of them,
and the records keep their labels. -/
structure Logged (db : KVDB) (hs : List Holder) (r : Receipt) (db' : KVDB) : Prop where
  labelled : Labelled su db'
  frame : ∀ h, h ∉ hs → db' (h.key su) = db (h.key su)
  logs : ∀ log ∈ r.logs, ∃ h ∈ hs, log.log.key su = h.key su ∧ log.log.prev = load su db h ∧
    db' (h.key su) = some log.log.current ∧ log.log.current.addr = h.addr.text

variable {su} {db : KVDB}

variable {hs : List Holder} {m : M Unit} {h : Holder} {new : Account} {kv : List KV} {ty : LogTy} {d : LogData}

lemma Logged.matches (hdb : Labelled su db) {r : Receipt} {db' : KVDB}
    (h : Logged su db hs r db') : ∀ log ∈ r.logs, log.log.Matches su db db' := by
  intro log hl
  obtain ⟨holder,_,hk,hp,hc,ha⟩ := h.logs log hl
  have hla : log.log.prev.addr = holder.addr.text := by rw [hp,hdb holder]
  refine ⟨?_,hk ▸ hc,ha.trans hla.symm⟩
  rw [hk,hla]
  exact hp.symm

variable (su) in
/-- The log of one holder, whose new record is the given one. -/
structure Tells (d : LogData) (db : KVDB) (h : Holder) (new : Account) : Prop where
  key : d.key su = h.key su
  prev : d.prev = load su db h
  current : d.current = new

lemma logged_save (hdb : Labelled su db) (hm : Saves su m h new) (hd : Tells su d db h new) :
    Leads (· = db) (m >>= fun _ => pure ⟨kv,[⟨ty,d⟩]⟩) (Logged su db [h]) := by
  rintro _ r db' rfl he
  rw [Proc.exec_bind_ok (hm.2 _),Proc.exec_pure,Prod.mk.injEq,Except.ok.injEq] at he
  obtain ⟨rfl,rfl⟩ := he
  refine ⟨hdb.update hm.1,fun h' hh' => ?_,fun log hl => ?_⟩
  · have hne : h'.key su ≠ h.key su := (Holder.key_injective su).ne (by simpa using hh')
    exact update_of_ne hne _ _
  · obtain rfl := mem_singleton.mp hl
    refine ⟨h,mem_singleton_self h,hd.key,hd.prev,?_,?_⟩
    · rw [hd.current,update_self]
    · rw [hd.current,hm.1]

lemma logged_saveTwo (hdb : Labelled su db) {m' : M Unit} {h' : Holder} {new' : Account}
    {ty' : LogTy} {d' : LogData} (hne : h ≠ h') (hm : Saves su m h new)
    (hm' : Saves su m' h' new') (hd : Tells su d db h new) (hd' : Tells su d' db h' new') :
    Leads (· = db) (m >>= fun _ => m' >>= fun _ => pure ⟨kv,[⟨ty,d⟩,⟨ty',d'⟩]⟩) (Logged su db [h,h']) := by
  rintro _ r db' rfl he
  rw [Proc.exec_bind_ok (hm.2 _),Proc.exec_bind_ok (hm'.2 _),Proc.exec_pure,Prod.mk.injEq,Except.ok.injEq] at he
  obtain ⟨rfl,rfl⟩ := he
  have hk := Holder.key_injective su
  refine ⟨(hdb.update hm.1).update hm'.1,fun h1 hh1 => ?_,fun log hl => ?_⟩
  · simp only [mem_cons,not_mem_nil,or_false,not_or] at hh1
    rw [update_of_ne (hk.ne hh1.2),update_of_ne (hk.ne hh1.1)]
  · rcases mem_cons.mp hl with rfl | hl
    · refine ⟨h,by simp,hd.key,hd.prev,?_,?_⟩
      · rw [update_of_ne (hk.ne hne),update_self,hd.current]
      · rw [hd.current,hm.1]
    · obtain rfl := mem_singleton.mp hl
      refine ⟨h',by simp,hd'.key,hd'.prev,?_,?_⟩
      · rw [update_self,hd'.current]
      · rw [hd'.current,hm'.1]

lemma logged_merge {hs' : List Holder} (hd : ∀ h ∈ hs, h ∉ hs') {m1 m2 : M Receipt}
    (h1 : Leads (· = db) m1 (Logged su db hs))
    (h2 : ∀ db1, Labelled su db1 → Leads (· = db1) m2 (Logged su db1 hs')) :
    Leads (· = db) (m1 >>= fun r1 => m2 >>= fun r2 => pure (mergeReceipt r1 r2))
      (Logged su db (hs ++ hs')) := by
  rintro s r db2 rfl he
  obtain ⟨r1,db1,he1,he⟩ := Proc.exec_bind_eq_ok.mp he
  obtain ⟨r2,db2,he2,he⟩ := Proc.exec_bind_eq_ok.mp he
  rw [Proc.exec_pure,Prod.mk.injEq,Except.ok.injEq] at he
  obtain ⟨rfl,rfl⟩ := he
  have hf := h1 _ r1 db1 rfl he1
  have hsn := h2 db1 hf.labelled _ r2 db2 rfl he2
  refine ⟨hsn.labelled,fun h hh => ?_,fun log hl => ?_⟩
  · rw [mem_append,not_or] at hh
    rw [hsn.frame h hh.2,hf.frame h hh.1]
  · rcases mem_append.mp hl with hl | hl
    · obtain ⟨h,hh,hk,hp,hc,ha⟩ := hf.logs log hl
      exact ⟨h,mem_append_left _ hh,hk,hp,by rw [hsn.frame h (hd h hh),hc],ha⟩
    · obtain ⟨h,hh,hk,hp,hc,ha⟩ := hsn.logs log hl
      have hsa : load su db1 h = load su s h := by rw [load,load,hf.frame h fun hm => hd h hm hh]
      exact ⟨h,mem_append_right _ hh,hk,hp.trans hsa,hc,ha⟩

section
variable (hdb : Labelled su db)
include hdb

variable (e a : Address) (x : ℤ) (new : Account)

lemma tells_transfer : Tells su (.accountTransfer (load su db (.main a)) new) db (.main a) new :=
  ⟨congrArg (accountKey su) (hdb (.main a)),rfl,rfl⟩

lemma tells_exec : Tells su (.execAccountTransfer e.text (load su db (.exec e a)) new) db (.exec e a) new :=
  ⟨congrArg (execAccountKey su · e.text) (hdb (.exec e a)),rfl,rfl⟩

lemma transfer_logged (b : Address) (x : ℤ) :
    Leads (· = db) (transfer su a.text b.text x) (Logged su db [.main a,.main b]) := by
  have ha : ∀ c : Address, (load su db (.main c)).addr = c.text := fun c => hdb (.main c)
  refine .guard <| .reads_at (.reads_at (.failIf_then fun hab => .guard <|
    logged_saveTwo hdb ?_ (saves_main a (ha a)) (saves_main b (ha b)) (tells_transfer hdb a _)
      (tells_transfer hdb b _)))
  rintro h
  obtain rfl : a = b := by simpa using h
  exact hab rfl

lemma depositBalance_logged : Leads (· = db) (depositBalance su e.text x) (Logged su db [.main e]) :=
  .guard <| .reads_at (logged_save hdb (saves_main e (hdb (.main e)))
    (tells_transfer hdb e _))

lemma genesisInit_logged : Leads (· = db) (genesisInit su a.text x) (Logged su db [.main a]) :=
  .reads_at (.demand_then fun _ _ => logged_save hdb (saves_main a (hdb (.main a)))
    (tells_transfer hdb a _))

lemma updateExec_logged (ty : LogTy) (e a : Address) {new : Account} (hn : new.addr = a.text) :
    Leads (· = db) (updateExec su ty e.text (load su db (.exec e a)) new) (Logged su db [.exec e a]) :=
  logged_save hdb (saves_exec e a hn) (tells_exec hdb e a _)

lemma updateExecs_logged {a b : Address} (ha : a ≠ b) {nf nt : Account}
    (hf : nf.addr = a.text) (ht : nt.addr = b.text) :
    Leads (· = db) (updateExecs su e.text (load su db (.exec e a)) nf (load su db (.exec e b)) nt)
      (Logged su db [.exec e a,.exec e b]) :=
  logged_saveTwo hdb (by simpa using ha) (saves_exec e a hf) (saves_exec e b ht)
    (tells_exec hdb e a _) (tells_exec hdb e b _)

lemma execDeposit_logged (e : Address) (x : ℤ) :
    Leads (· = db) (execDeposit su a.text e.text x) (Logged su db [.exec e a]) :=
  .guard <| .guard <| .reads_at
    (updateExec_logged hdb _ e a (hdb (.exec e a)))

lemma depositFrozen_logged (e : Address) (x : ℤ) :
    Leads (· = db) (depositFrozen su a.text e.text x) (Logged su db [.exec e a]) :=
  .guard <| .guard <| .reads_at
    (updateExec_logged hdb _ e a (hdb (.exec e a)))

lemma execWithdraw_logged : Leads (· = db) (execWithdraw su e.text a.text x) (Logged su db [.exec e a]) :=
  .guard <| .guard <| .reads_at (.guard <|
    updateExec_logged hdb _ e a (hdb (.exec e a)))

/-- The accounts whose records an operation changes. -/
def Op.touched : Op → List Holder
  | .transfer a b _ => [.main a,.main b]
  | .mint a _ => [.main a]
  | .burn a _ => [.main a]
  | .genesisInit a _ => [.main a]
  | .genesisInitExec a _ e => [.main e,.exec e a]
  | .execIssueCoins e _ => [.main e]
  | .transferToExec a e _ => [.main a,.main e,.exec e a]
  | .transferWithdraw a e _ => [.exec e a,.main e,.main a]
  | .execFrozen a e _ => [.exec e a]
  | .execActive a e _ => [.exec e a]
  | .execTransfer a b e _ => [.exec e a,.exec e b]
  | .execTransferFrozen a b e _ => [.exec e a,.exec e b]
  | .execDepositFrozen a e _ => [.main e,.exec e a]

/-- Every operation logs the records it changes, as they were and as they are. -/
theorem Op.logged (op : Op) : Leads (· = db) (op.call su) (Logged su db op.touched) := by
  have hl : ∀ e a : Address, (load su db (.exec e a)).addr = a.text := fun e a => hdb (.exec e a)
  cases op with
  | transfer a b x => exact transfer_logged hdb a b x
  | mint a x =>
    exact .guard <| .reads_at (.demand_then fun _ _ => logged_save hdb
      (saves_main a (hdb (.main a))) ⟨congrArg (accountKey su) (hdb (.main a)),rfl,rfl⟩)
  | burn a x =>
    exact .guard <| .reads_at (.guard <| logged_save hdb
      (saves_main a (hdb (.main a))) ⟨congrArg (accountKey su) (hdb (.main a)),rfl,rfl⟩)
  | genesisInit a x => exact genesisInit_logged hdb a x
  | genesisInitExec a x e =>
    exact logged_merge (by simp) (genesisInit_logged hdb e x) fun _ hdb1 =>
      (execDeposit_logged hdb1 a e x).adapt _
  | execIssueCoins e x => exact .guard <| depositBalance_logged hdb e x
  | transferToExec a e x =>
    exact logged_merge (by simp) (transfer_logged hdb a e x) fun _ hdb1 =>
      (execDeposit_logged hdb1 a e x).adapt _
  | transferWithdraw a e x =>
    exact .bind (checkTransfer_leads e.text x) fun _ => logged_merge (by simp)
      (execWithdraw_logged hdb e a x) fun _ hdb1 => (transfer_logged hdb1 e a x).adapt _
  | execFrozen a e x
  | execActive a e x =>
    exact .guard <| .guard <| .reads_at (.guard <|
      updateExec_logged hdb _ e a (hl e a))
  | execTransfer a b e x
  | execTransferFrozen a b e x =>
    exact .failIf_then fun ha => .guard <| .reads_at (.reads_at (.guard <|
      updateExecs_logged hdb e (fun h => ha (by rw [h])) (hl e a) (hl e b)))
  | execDepositFrozen a e x =>
    exact .guard <| logged_merge (by simp) (.guard <|
      depositBalance_logged hdb e x) fun _ hdb1 => depositFrozen_logged hdb1 a e x

end

/-- The receipt of a successful operation repeats its writes; on proper addresses and
labelled records its logs tell the records before and after, and the records stay
labelled. -/
theorem receipt_replays (req : Request) {r : Receipt} {db' : KVDB}
    (hrun : (req.call su).exec db = (.ok r,db')) :
    setAll db r.kv = db' ∧ ∀ op : Op, req = op.request → Labelled su db →
      (∀ log ∈ r.logs, log.log.Matches su db db') ∧ Labelled su db' := by
  refine ⟨req.replays db r db' rfl hrun,?_⟩
  rintro op rfl hdb
  rw [op.request_call] at hrun
  have hl := op.logged hdb db r db' rfl hrun
  exact ⟨hl.matches hdb,hl.labelled⟩

end

/-- The first coins of a user. -/
theorem receipt_replays_mint :
    ∃ r db', ((Request.mint user.text 5).call sampleSetup).exec (fun _ => none) = (.ok r,db') ∧
      setAll (fun _ => none) r.kv = db' ∧ ∀ log ∈ r.logs, log.log.Matches sampleSetup (fun _ => none) db' := by
  have hl : Labelled sampleSetup fun _ => none := labelled_start sampleSetup
  obtain ⟨r,db',hrun,-⟩ := (Op.posts hl (.mint user 5)).ok ⟨by decide,by decide⟩
  obtain ⟨hk,hlg⟩ := receipt_replays (.mint user.text 5) hrun
  exact ⟨r,db',hrun,hk,(hlg (.mint user 5) rfl hl).1⟩

/-- The key of a user inside a contract, written as an address. -/
def clashing : Bytes := Bytes.ofString "exec-M:U"

def paidIn : KVDB :=
  (((Request.transferToExec user.text contract.text 10).call sampleSetup).exec
    (((Request.mint user.text 100).call sampleSetup).exec fun _ => none).2).2

def logsMatch (su : Setup) (req : Request) (db : KVDB) : Option Bool :=
  match (req.call su).exec db with
  | (.ok r,db') => some (decide (∀ log ∈ r.logs, log.log.Matches su db db'))
  | _ => none

/-- A transfer to such an address reads the exec account of the user and overwrites
the main one. -/
theorem receipt_clashes :
    ∃ r db', ((Request.transfer contract.text clashing 3).call sampleSetup).exec paidIn = (.ok r,db') ∧
      ¬∀ log ∈ r.logs, log.log.Matches sampleSetup paidIn db' := by
  have hc : logsMatch sampleSetup (.transfer contract.text clashing 3) paidIn = some false := by decide +kernel
  unfold logsMatch at hc
  rcases hrun : ((Request.transfer contract.text clashing 3).call sampleSetup).exec paidIn with
    ⟨e | r,db'⟩
  · simp [hrun] at hc
  · rw [hrun] at hc
    exact ⟨r,db',rfl,of_decide_eq_false (Option.some.inj hc)⟩

end Dpos.AccountDB
