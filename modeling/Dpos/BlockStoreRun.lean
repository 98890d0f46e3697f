import Dpos.BlockStore

/-! Runs of the block store: the sequence log replays to the main chain, and which number of it a
caller gets back. -/
namespace Dpos.BlockStore

open KeyIndex StackLog List BlockSequence

def BlockSequence.entry (e : BlockSequence) : Entry Bytes :=
  match e.type with
  | .addBlock => .push e.hash
  | .delBlock => .pop e.hash

/-- The keys of the main chain's own tables. -/
def Key.isTable : Key → Bool
  | .blockLastHeight => true
  | .hashToHeight _ => true
  | .heightToHash _ => true
  | _ => false

variable {su : Setup}

@[simp] lemma readInt64_encode (n : ℤ) : readInt64 su (some (su.encodeInt64 n)) = .ok n := by
  simp [readInt64,su.decodeHeight_encodeInt64]

def lastNumber (su : Setup) (log : List BlockSequence) : Option Bytes :=
  if log = [] then none else some (su.encodeInt64 (log.length-1))

lemma lastNumber_snoc (log : List BlockSequence) (entry : BlockSequence) :
    lastNumber su (log ++ [entry]) = some (su.encodeInt64 log.length) := by
  simp [lastNumber]

lemma orAbsent_lastNumber (co : String) (log : List BlockSequence) :
    orAbsent co (readInt64 su (lastNumber su log)) = .ok (log.length-1) := by
  unfold lastNumber
  split_ifs with h
  · simp [h,readInt64,orAbsent]
  · simp [orAbsent]

/-- The table `db` holds the log under its numbers. -/
def Lists (su : Setup) (db : Key → Option Bytes) (log : List BlockSequence) : Prop :=
  ∀ i, db (calcSequenceToHashKey i su.isParaChain) = (cell log i).map su.encodeSequence

def LeavesTables (kvs : List (Key × Option Bytes)) : Prop :=
  ∀ (db : Key → Option Bytes) (key : Key), key.isTable = true → writeAll db kvs key = db key

variable {kvs : List (Key × Option Bytes)} {log' : List BlockSequence} {block : Block}
  {hash : Bytes}

variable {kvs' : List (Key × Option Bytes)} {log : List BlockSequence} {blocks : List Block} {s : Store}

lemma LeavesTables.append (h : LeavesTables kvs) (h' : LeavesTables kvs') : LeavesTables (kvs ++ kvs') := by
  intro db key hk
  rw [writeAll_append,h' _ _ hk,h _ _ hk]

/-- Writes that turn one log into another and leave the tables of the chain alone. -/
structure Logs (su : Setup) (kvs : List (Key × Option Bytes)) (log log' : List BlockSequence) : Prop where
  entries : ∀ db, Lists su db log → Lists su (writeAll db kvs) log'
  last : ∀ db : Key → Option Bytes, db (calcLastSeqKey su.isParaChain) = lastNumber su log →
    writeAll db kvs (calcLastSeqKey su.isParaChain) = lastNumber su log'
  frame : LeavesTables kvs

lemma Logs.nil (log : List BlockSequence) : Logs su [] log log := ⟨fun _ h => h,fun _ h => h,fun _ _ _ => rfl⟩

lemma Logs.append {log'' : List BlockSequence} (h : Logs su kvs log log') (h' : Logs su kvs' log' log'') :
    Logs su (kvs ++ kvs') log log'' where
  entries db hdb := by
    rw [writeAll_append]
    exact h'.entries _ (h.entries _ hdb)
  last db hdb := by
    rw [writeAll_append]
    exact h'.last _ (h.last _ hdb)
  frame := h.frame.append h'.frame

lemma writeAll_sequenceKVs (db : Key → Option Bytes) (th hashTo l : Key) (entry : BlockSequence)
    (sequence : ℤ) (key : Key) : writeAll db (sequenceKVs su th hashTo l entry sequence) key =
      if key = l then some (su.encodeInt64 sequence)
      else if entry.type = .addBlock ∧ key = hashTo then some (su.encodeInt64 sequence)
      else if key = th then some (su.encodeSequence entry) else db key := by
  cases hty : entry.type <;>
    simp [sequenceKVs,hty,writeAll,write,Function.update_apply]

lemma logs_own (log : List BlockSequence) (entry : BlockSequence) :
    Logs su (sequenceKVs su (calcSequenceToHashKey log.length su.isParaChain)
      (calcHashToSequenceKey entry.hash su.isParaChain) (calcLastSeqKey su.isParaChain) entry log.length)
      log (log ++ [entry]) where
  entries db hdb i := by
    rw [writeAll_sequenceKVs,cell_snoc]
    by_cases hi : i = log.length
    · simp [hi]
    · simpa [hi] using hdb i
  last db _ := by rw [writeAll_sequenceKVs,lastNumber_snoc,if_pos rfl]
  frame db key hk := by
    rw [writeAll_sequenceKVs]
    cases key <;> cases hp : su.isParaChain <;>
      simp_all [Key.isTable,calcSequenceToHashKey,calcHashToSequenceKey,calcLastSeqKey]

/-- The main chain's numbers are kept apart from the log of a parallel chain. -/
theorem logs_main (hp : su.isParaChain = true) (log : List BlockSequence) (entry : BlockSequence)
    (hash : Bytes) (sequence : ℤ) :
    Logs su (sequenceKVs su (.seqToHash sequence) (.hashToSeq hash) .lastSequence entry sequence) log log where
  entries db hdb i := by
    rw [writeAll_sequenceKVs,← hdb i]
    simp [hp,calcSequenceToHashKey]
  last db hdb := by
    rw [writeAll_sequenceKVs,← hdb]
    simp [hp,calcLastSeqKey]
  frame db key hk := by
    rw [writeAll_sequenceKVs]
    cases key <;> simp_all [Key.isTable]

/-- An entry is put at the end of the log if the store records. -/
def Store.logAfter (s : Store) (log : List BlockSequence) (entry : BlockSequence) : List BlockSequence :=
  if s.saveSequence then log ++ [entry] else log

lemma saveBlockSequence_logs
    (hla : s.get (calcLastSeqKey su.isParaChain) = lastNumber su log) {height : ℤ}
    (hze : s.saveSequence = true → log = [] → height = 0) (hash : Bytes) (type : SeqType) (sequence : ℤ) :
    ∃ kvs ns, saveBlockSequence su s hash height type sequence = .ok (kvs,ns) ∧
      Logs su kvs log (s.logAfter log ⟨hash,type⟩) := by
  obtain ⟨kvs,ns,ho,hlo⟩ : ∃ kvs ns,
      ownSequence su s height ⟨hash,type⟩ = .ok (kvs,ns) ∧
        Logs su kvs log (s.logAfter log ⟨hash,type⟩) := by
    by_cases hsave : s.saveSequence
    · have hn : ¬(((log.length : ℤ)-1+1 = 0) ∧ height ≠ 0) := by
        rintro ⟨hl,hne⟩
        exact hne (hze hsave (eq_nil_of_length_eq_zero (by omega)))
      refine ⟨_,log.length,?_,by simpa [Store.logAfter,hsave] using logs_own log ⟨hash,type⟩⟩
      simp only [ownSequence,hsave,loadBlockLastSequence,hla,orAbsent_lastNumber,ok_bind,if_neg hn]
      simp
    · refine ⟨[],0,by simp [ownSequence,hsave],?_⟩
      simpa [Store.logAfter,hsave] using Logs.nil log
  cases hp : su.isParaChain with
  | false => exact ⟨kvs,ns,by simp [saveBlockSequence,ho,hp],hlo⟩
  | true =>
    refine ⟨_,ns,?_,hlo.append (logs_main hp _ ⟨hash,type⟩ hash sequence)⟩
    simp [saveBlockSequence,ho,hp]

/-- No header key of the listed blocks starts with another one, as keys of equal
length do not. -/
def KeysApart (su : Setup) (blocks : List Block) : Prop :=
  ∀ b ∈ blocks, ∀ b' ∈ blocks,
    calcHeightHashKey b.height (su.hash b) <+: calcHeightHashKey b'.height (su.hash b') →
      b.height = b'.height ∧ su.hash b = su.hash b'

instance (su : Setup) (blocks : List Block) : Decidable (KeysApart su blocks) := by
  unfold KeysApart
  infer_instance

/-- The rows of the header table: of blocks that were saved, no row twice, and one
for each block of the chain. -/
structure Rows (su : Setup) (blocks : List Block) (rows : List Header) (chain : List Bytes) : Prop where
  saved : ∀ row ∈ rows, ∃ b ∈ blocks, row = ⟨b.height,su.hash b⟩
  nodup : rows.Nodup
  chain : ∀ i hash, cell chain i = some hash → ⟨i,hash⟩ ∈ rows

lemma Header.eq_of_key (hk : KeysApart su blocks) {row row' : Header}
    (hrow : ∃ b ∈ blocks, row = ⟨b.height,su.hash b⟩) (hrow' : ∃ b ∈ blocks, row' = ⟨b.height,su.hash b⟩)
    (h : row.key <+: row'.key) : row = row' := by
  obtain ⟨b,hb,rfl⟩ := hrow
  obtain ⟨b',hb',rfl⟩ := hrow'
  obtain ⟨hheight,hh⟩ := hk b hb b' hb' h
  rw [hheight,hh]

section
variable {blocks : List Block} {rows : List Header} {chain : List Bytes}

lemma Rows.mem_replaceRow (h : Rows su blocks rows chain) (hke : KeysApart su blocks)
    (hb : block ∈ blocks) {row : Header} : row ∈ replaceRow rows ⟨block.height,su.hash block⟩ ↔
      row ∈ rows ∨ row = ⟨block.height,su.hash block⟩ := by
  simp only [replaceRow,mem_append,mem_filter,mem_singleton]
  constructor
  · rintro (⟨hrow,-⟩ | rfl)
    · exact .inl hrow
    · exact .inr rfl
  · rintro (hrow | rfl)
    · by_cases hk : row.key = Header.key ⟨block.height,su.hash block⟩
      · exact .inr (Header.eq_of_key hke (h.saved row hrow) ⟨block,hb,rfl⟩ (hk ▸ prefix_rfl))
      · exact .inl ⟨hrow,by simpa using hk⟩
    · exact .inr rfl

lemma Rows.save (h : Rows su blocks rows chain) (hk : KeysApart su blocks)
    (hb : block ∈ blocks) (hheight : block.height = chain.length) :
    Rows su blocks (replaceRow rows ⟨block.height,su.hash block⟩) (chain ++ [su.hash block]) where
  saved row hrow := by
    rcases (h.mem_replaceRow hk hb).mp hrow with hrow | rfl
    · exact h.saved row hrow
    · exact ⟨block,hb,rfl⟩
  nodup := by
    refine List.Nodup.append (h.nodup.filter _) (nodup_singleton _) ?_
    rintro row hrow hn
    rw [mem_singleton] at hn
    simp [hn] at hrow
  chain i hash hi := by
    rw [h.mem_replaceRow hk hb]
    rw [cell_snoc] at hi
    split_ifs at hi with he
    · right
      rw [he,← hheight,Option.some.inj hi]
    · exact .inl (h.chain i hash hi)

lemma Rows.unsave (h : Rows su blocks rows (chain ++ [hash])) : Rows su blocks rows chain where
  saved := h.saved
  nodup := h.nodup
  chain i hash' hi := by
    apply h.chain
    rw [cell_snoc,if_neg,hi]
    rintro rfl
    rw [cell_length] at hi
    cases hi

lemma Rows.getHeaderByIndex_eq {s : Store} (h : Rows su blocks s.headers chain)
    (hk : KeysApart su blocks) {i : ℤ} (hi : cell chain i = some hash) :
    getHeaderByIndex s (calcHeightHashKey i hash) = .ok ⟨i,hash⟩ := by
  have hm := h.chain i hash hi
  have ho : s.headers.filter (fun row => calcHeightHashKey i hash <+: row.key) = [⟨i,hash⟩] := by
    refine perm_singleton.mp ((perm_ext_iff_of_nodup (h.nodup.filter _) (nodup_singleton _)).mpr fun row => ?_)
    rw [mem_filter,mem_singleton]
    constructor
    · rintro ⟨hrow,hky⟩
      exact (Header.eq_of_key hk (h.saved _ hm) (h.saved _ hrow) (of_decide_eq_true hky)).symm
    · rintro rfl
      exact ⟨hm,by simp [Header.key]⟩
  simp [getHeaderByIndex,ho]

end

/-- The store holds the chain, and a log that replays to it if it records. -/
structure Stands (su : Setup) (blocks : List Block) (s : Store) (c : Course) (log : List BlockSequence) :
    Prop where
  recording : s.saveSequence = c.recording
  height : s.height = c.chain.length-1
  lastHeight : ∀ context, orAbsent context (loadBlockStoreHeight su s) = .ok (c.chain.length-1)
  hashes : ∀ i, s.get (.heightToHash i) = cell c.chain i
  rows : Rows su blocks s.headers c.chain
  entries : Lists su s.get log
  last : s.get (calcLastSeqKey su.isParaChain) = lastNumber su log
  silent : c.recording = false → log = []
  replays : c.recording = true → replay [] (log.map entry) = some c.chain

section
variable {blocks : List Block} {s : Store} {c : Course} {log : List BlockSequence}

lemma stands_empty : Stands su blocks .empty ⟨[],false⟩ [] where
  recording := rfl
  height := rfl
  lastHeight _ := rfl
  hashes i := (cell_nil i).symm
  rows := ⟨by simp [Store.empty],by simp [Store.empty],by simp [cell_nil]⟩
  entries i := by simp [cell_nil,Store.empty,Store.get]
  last := rfl
  silent _ := rfl
  replays h := absurd h (by simp)

lemma Stands.length_le (h : Stands su blocks s c log) (hr : c.recording = true) :
    c.chain.length ≤ log.length := by
  simpa using length_replay (h.replays hr)

section
variable (hla : s.get (calcLastSeqKey su.isParaChain) = lastNumber su log) (hze : s.saveSequence = true → log = [] → block.height = 0) (sequence : ℤ)
include hla hze sequence

lemma saveBlock_eq : ∃ batch ls ss, saveBlock su s block sequence = .ok (batch,ls) ∧
      batch = ⟨[(.blockLastHeight,some (su.encodeInt64 block.height)),
        (.hashToHeight (su.hash block),some (su.encodeInt64 block.height)),
        (.heightToHash block.height,some (su.hash block))] ++ ss,[⟨block.height,su.hash block⟩]⟩ ∧
      Logs su ss log (s.logAfter log ⟨su.hash block,.addBlock⟩) := by
  obtain ⟨ss,ns,he,hl⟩ := saveBlockSequence_logs hla hze (su.hash block) .addBlock sequence
  by_cases hs : s.saveSequence = false ∧ su.isParaChain = false
  · refine ⟨_,-1,[],by simp [saveBlock,hs],rfl,?_⟩
    simpa [Store.logAfter,hs.1] using Logs.nil log
  · exact ⟨_,ns,ss,by simp [saveBlock,hs,he],rfl,hl⟩

lemma delBlock_eq : ∃ batch ss, delBlock su s block sequence = .ok (batch,-1) ∧
      batch = ⟨[(.blockLastHeight,some (su.encodeInt64 (block.height-1))),
        (.hashToHeight (su.hash block),none),(.heightToHash block.height,none)] ++ ss,[]⟩ ∧
      Logs su ss log (s.logAfter log ⟨su.hash block,.delBlock⟩) := by
  obtain ⟨ss,ns,he,hl⟩ := saveBlockSequence_logs hla hze (su.hash block) .delBlock sequence
  by_cases hs : s.saveSequence = false ∧ su.isParaChain = false
  · refine ⟨_,[],by simp [delBlock,hs],rfl,?_⟩
    simpa [Store.logAfter,hs.1] using Logs.nil log
  · exact ⟨_,ss,by simp [delBlock,hs,he],rfl,hl⟩

end

variable {height : ℤ} {entry : BlockSequence} {chain : List Bytes}

section
variable (h : Stands su blocks s c log)
include h

/-- A batch for the chain's tables and the log does to each what is meant for it. -/
theorem Stands.write {batch : Batch} {l t he : Option Bytes}
    {headers : List Header} {seqs : List (Key × Option Bytes)}
    (hb : batch = ⟨[(.blockLastHeight,l),(.hashToHeight hash,t),(.heightToHash height,he)] ++ seqs,headers⟩)
    (hs : Logs su seqs log log') : Lists su (s.write batch).get log' ∧
      (s.write batch).get (calcLastSeqKey su.isParaChain) = lastNumber su log' ∧
      (s.write batch).get .blockLastHeight = l ∧
      ∀ i, (s.write batch).get (.heightToHash i) = if i = height then he else cell c.chain i := by
  have hg : (s.write batch).get = writeAll (writeAll s.get
      [(.blockLastHeight,l),(.hashToHeight hash,t),(.heightToHash height,he)]) seqs := by
    rw [hb,Store.get_write,writeAll_append]
  rw [hg]
  refine ⟨hs.entries _ fun i => ?_,hs.last _ ?_,?_,fun i => ?_⟩
  · rw [← h.entries i]
    cases su.isParaChain <;> rfl
  · rw [← h.last]
    cases su.isParaChain <;> rfl
  · rw [hs.frame _ _ rfl]
    rfl
  · rw [hs.frame _ _ rfl,← h.hashes i]
    simp [writeAll,KeyIndex.write,Function.update_apply]

lemma Stands.log_zero (hle : 0 ≤ height)
    (hheight : height ≤ c.chain.length) (hsave : s.saveSequence = true) (hlg : log = []) : height = 0 := by
  have hl := h.length_le (h.recording ▸ hsave)
  rw [hlg,length_nil] at hl
  omega

lemma Stands.silent_step (hr : c.recording = false) : s.logAfter log entry = [] := by
  rw [Store.logAfter,h.recording,hr]
  exact h.silent hr

/-- The log with one more entry replays to the chain that the entry leads to. -/
theorem Stands.replays_step (ha : act c.chain entry.entry = some chain) (hr : c.recording = true) :
    replay [] ((s.logAfter log entry).map BlockSequence.entry) = some chain := by
  rw [Store.logAfter,h.recording,hr,if_pos rfl,map_append,map_singleton,replay_snoc (h.replays hr)]
  exact ha

lemma Stands.save (hk : KeysApart su blocks)
    (hbl : block ∈ blocks) (hheight : block.height = c.chain.length) (sequence : ℤ) :
    ∃ s' log', step su s (.save block sequence) = .ok s' ∧
      Stands su blocks s' { c with chain := c.chain ++ [su.hash block] } log' := by
  obtain ⟨batch,ls,ss,he,hb,hl⟩ :=
    saveBlock_eq h.last (h.log_zero (by omega : 0 ≤ block.height) (by omega)) sequence
  obtain ⟨hes,hla,ht,hh⟩ := h.write hb hl
  refine ⟨{ s.write batch with height := block.height },s.logAfter log ⟨su.hash block,.addBlock⟩,
    by simp [step,he],?_⟩
  refine
    { recording := h.recording
      height := by simp [hheight]
      lastHeight := fun co => ?_
      hashes := fun i => ?_
      rows := by
        rw [hb]
        exact h.rows.save hk hbl hheight
      entries := hes
      last := hla
      silent := h.silent_step
      replays := h.replays_step rfl }
  · refine Eq.trans (congrArg (fun b => orAbsent co (readInt64 su b)) ht) ?_
    simp [orAbsent,hheight]
  · rw [cell_snoc,← hheight]
    exact hh i

lemma Stands.del (hchain : c.chain = chain ++ [su.hash block]) (hheight : block.height = chain.length)
    (sequence : ℤ) :
    ∃ s' log', step su s (.del block sequence) = .ok s' ∧ Stands su blocks s' { c with chain } log' := by
  have hl : c.chain.length = chain.length+1 := by simp [hchain]
  obtain ⟨batch,ss,he,hb,hlo⟩ :=
    delBlock_eq h.last (h.log_zero (by omega : 0 ≤ block.height) (by omega)) sequence
  obtain ⟨hes,hla,ht,hh⟩ := h.write hb hlo
  have hld : loadBlockStoreHeight su (s.write batch) = .ok (chain.length-1) := by
    rw [loadBlockStoreHeight,ht,readInt64_encode,hheight]
  refine ⟨{ s.write batch with height := chain.length-1 },s.logAfter log ⟨su.hash block,.delBlock⟩,
    by simp [step,he,updateHeight,hld],?_⟩
  refine
    { recording := h.recording
      height := rfl
      lastHeight := fun co => congrArg (orAbsent co) hld
      hashes := fun i => ?_
      rows := by
        rw [hb]
        exact (hchain ▸ h.rows).unsave
      entries := hes
      last := hla
      silent := h.silent_step
      replays := h.replays_step (by rw [hchain]; exact act_pop chain (su.hash block)) }
  refine (hh i).trans ?_
  rw [hchain,cell_snoc,hheight]
  split_ifs with hi
  · rw [hi,cell_length]
  · rfl

end

end

/-! ### Created sequences -/

/-- The log of a chain whose blocks were only added. -/
def adds (chain : List Bytes) : List BlockSequence := chain.map (⟨·,.addBlock⟩)

lemma replay_adds (chain : List Bytes) : replay [] ((adds chain).map entry) = some chain := by
  have hmap : (adds chain).map entry = chain.map Entry.push := by simp [adds,entry]
  rw [hmap,replay_push]
  rfl

section
variable {chain : List Bytes} {s s' s'' : Store}

/-- Nothing but the log differs. -/
structure SameChain (s s' : Store) : Prop where
  tables : ∀ key : Key, key.isTable = true → s'.get key = s.get key
  headers : s'.headers = s.headers
  height : s'.height = s.height
  saveSequence : s'.saveSequence = s.saveSequence

lemma SameChain.refl (s : Store) : SameChain s s := ⟨fun _ _ => rfl,rfl,rfl,rfl⟩

lemma SameChain.trans (h : SameChain s s') (h' : SameChain s' s'') : SameChain s s'' :=
  ⟨fun key hk => (h'.tables key hk).trans (h.tables key hk),h'.headers.trans h.headers,
    h'.height.trans h.height,h'.saveSequence.trans h.saveSequence⟩

lemma SameChain.write (h : LeavesTables kvs) : SameChain s (s.write ⟨kvs,[]⟩) :=
  ⟨fun key hk => by rw [Store.get_write,h s.get key hk],rfl,rfl,rfl⟩

lemma SameChain.getBlockHeaderByHeight_eq (h : SameChain s s') (i : ℤ) :
    getBlockHeaderByHeight s' i = getBlockHeaderByHeight s i := by
  simp only [getBlockHeaderByHeight,getBlockHashByHeight,getHeaderByIndex,h.tables (.heightToHash i) rfl,
    h.headers]

lemma leavesTables_created (i : ℤ) (hash : Bytes) (v v' : Option Bytes) :
    LeavesTables [(calcSequenceToHashKey i su.isParaChain,v),(calcHashToSequenceKey hash su.isParaChain,v')] := by
  intro db key hk
  cases hp : su.isParaChain <;> cases key <;> simp_all [Key.isTable] <;> rfl

lemma leavesTables_last (v : Option Bytes) : LeavesTables [(calcLastSeqKey su.isParaChain,v)] := by
  intro db key hk
  cases hp : su.isParaChain <;> cases key <;> simp_all [Key.isTable] <;> rfl

variable {db : Key → Option Bytes} {k : ℕ}

lemma Lists.created (h : Lists su db (adds chain)) (hash : Bytes) (v : Option Bytes) :
    Lists su (writeAll db [(calcSequenceToHashKey chain.length su.isParaChain,
      some (su.encodeSequence ⟨hash,.addBlock⟩)),(calcHashToSequenceKey hash su.isParaChain,v)])
      (adds (chain ++ [hash])) := by
  intro i
  have ha : adds (chain ++ [hash]) = adds chain ++ [⟨hash,.addBlock⟩] := by simp [adds]
  have hl : (adds chain).length = chain.length := by simp [adds]
  rw [ha,cell_snoc,hl]
  by_cases hi : i = chain.length
  · simp [writeAll,write,hi]
  · simpa [writeAll,write,hi] using h i

lemma Lists.last {log : List BlockSequence} (h : Lists su db log)
    (v : Option Bytes) : Lists su (writeAll db [(calcLastSeqKey su.isParaChain,v)]) log := by
  intro i
  simpa [writeAll,write] using h i

/-- From a log of the first `k` blocks the loop goes on to the whole chain, wherever
it writes what it has collected. -/
theorem createFrom_lists (bs : ℤ) {n : ℕ} (hk : k+n = chain.length) (ls : ℤ)
    {batch : List (Key × Option Bytes)} (hb : LeavesTables batch)
    (hli : Lists su (writeAll s.get batch) (adds (chain.take k)))
    (hh : ∀ i hash, cell chain i = some hash → getBlockHeaderByHeight s i = .ok ⟨i,hash⟩) :
    ∃ batch' s', createFrom su bs n k ls batch s = .ok (batch',s') ∧ LeavesTables batch' ∧
      SameChain s s' ∧ Lists su (writeAll s'.get batch') (adds chain) := by
  induction n generalizing k ls batch s with
  | zero =>
    refine ⟨batch,s,rfl,hb,.refl s,?_⟩
    rwa [take_of_length_le (by omega)] at hli
  | succ n ih =>
    have hlt : k < chain.length := by omega
    have hhe := hh k (chain.get ⟨k,hlt⟩) (by simp [cell,hlt])
    -- the batch with the two writes for this height
    obtain ⟨next,hnext⟩ : ∃ next, next = batch ++
        [(calcSequenceToHashKey k su.isParaChain,some (su.encodeSequence ⟨chain.get ⟨k,hlt⟩,.addBlock⟩)),
          (calcHashToSequenceKey (chain.get ⟨k,hlt⟩) su.isParaChain,some (su.encodeInt64 k))] := ⟨_,rfl⟩
    have hle : LeavesTables next := hnext ▸ hb.append (leavesTables_created _ _ _ _)
    have hgr : Lists su (writeAll s.get next) (adds (chain.take (k+1))) := by
      have hl : (chain.take k).length = k := by simp [hlt.le]
      have hc := hli.created (chain.get ⟨k,hlt⟩) (some (su.encodeInt64 k))
      rw [hl] at hc
      rw [hnext,writeAll_append,take_succ_eq_append_getElem hlt]
      exact hc
    have hca : ((k : ℤ)+1) = ((k+1 : ℕ) : ℤ) := by push_cast; rfl
    simp only [createFrom,hhe,Except.mapError,ok_bind,← hnext,hca]
    split_ifs with hf
    · have hs : SameChain s (s.write ⟨next ++ [(calcLastSeqKey su.isParaChain,some (su.encodeInt64 k))],[]⟩) :=
        .write (hle.append (leavesTables_last _))
      obtain ⟨batch',s',he,hle',hs',hli'⟩ := ih (k := k+1) (by omega) k (fun _ _ _ => rfl) (by
        rw [Store.get_write,writeAll_append s.get]
        exact hgr.last _) (fun i hash hi => (hs.getBlockHeaderByHeight_eq i).trans (hh i hash hi))
      exact ⟨batch',s',he,hle',hs.trans hs',hli'⟩
    · exact ih (by omega) ls hle hgr hh

/-- The log of the first `k` blocks is completed; `k` is 0 unless an earlier run of
`CreateSequences` was cut short. -/
theorem createSequences_lists (bs : ℤ) (hk : k ≤ chain.length) (hchain : chain ≠ [])
    (hheight : s.height = chain.length-1)
    (hla : s.get (calcLastSeqKey su.isParaChain) = lastNumber su (adds (chain.take k)))
    (hli : Lists su s.get (adds (chain.take k)))
    (hh : ∀ i hash, cell chain i = some hash → getBlockHeaderByHeight s i = .ok ⟨i,hash⟩) :
    ∃ s', createSequences su bs s = .ok s' ∧ SameChain s s' ∧ Lists su s'.get (adds chain) ∧
      s'.get (calcLastSeqKey su.isParaChain) = lastNumber su (adds chain) := by
  have hl : ((adds (chain.take k)).length : ℤ) = k := by simp [adds,hk]
  have hld : ∀ co, orAbsent co (loadBlockLastSequence su s) = .ok ((k : ℤ)-1) := by
    intro co
    rw [loadBlockLastSequence,hla,orAbsent_lastNumber,hl]
  have hn : LeavesTables [] := fun _ _ _ => rfl
  obtain ⟨batch,s',he,hle,hs,hc⟩ := createFrom_lists bs
    (Nat.add_sub_of_le hk) ((k : ℤ)-1) hn hli hh
  have hlp : ((chain.length : ℤ)-1-((k : ℤ)-1)).toNat = chain.length-k := by omega
  have hnm : lastNumber su (adds chain) = some (su.encodeInt64 (chain.length-1)) := by
    simp [lastNumber,adds,hchain]
  refine ⟨s'.write ⟨batch ++ [(calcLastSeqKey su.isParaChain,some (su.encodeInt64 (chain.length-1)))],[]⟩,
    ?_,hs.trans (.write (hle.append (leavesTables_last _))),?_,?_⟩
  · simp only [createSequences,hld,ok_bind,hheight,hlp,sub_add_cancel,he,pure_eq_ok]
  · rw [Store.get_write,writeAll_append]
    exact hc.last _
  · rw [Store.get_write,writeAll_append,hnm]
    simp [writeAll,write]

end

section
variable {blocks : List Block} {s : Store} {c : Course} {log : List BlockSequence}

lemma Stands.getBlockHeaderByHeight_eq (h : Stands su blocks s c log)
    (hk : KeysApart su blocks) {i : ℤ} (hi : cell c.chain i = some hash) :
    getBlockHeaderByHeight s i = .ok ⟨i,hash⟩ := by
  simp only [getBlockHeaderByHeight,getBlockHashByHeight,h.hashes i,hi,ok_bind]
  exact h.rows.getHeaderByIndex_eq hk hi

variable {record : Bool} {c' : Course}

section
variable (h : Stands su blocks s c log)
include h

lemma Stands.restarted {s' : Store}
    (hs : SameChain { s with saveSequence := record } s') (he : Lists su s'.get log')
    (hla : s'.get (calcLastSeqKey su.isParaChain) = lastNumber su log')
    (hsi : record = false → log' = [])
    (hr : record = true → replay [] (log'.map entry) = some c.chain) :
    Stands su blocks s' { c with recording := record } log' where
  recording := hs.saveSequence
  height := hs.height.trans h.height
  lastHeight context := by
    rw [loadBlockStoreHeight,hs.tables .blockLastHeight rfl]
    exact h.lastHeight context
  hashes i := (hs.tables (.heightToHash i) rfl).trans (h.hashes i)
  rows := by
    rw [hs.headers]
    exact h.rows
  entries := he
  last := hla
  silent := hsi
  replays := hr

lemma Stands.start_eq (record : Bool) (bs : ℤ) : step su s (.start record bs) =
      (checkSequenceStatus su { s with saveSequence := record } record >>= fun cr =>
        if cr then createSequences su bs { s with saveSequence := record }
        else .ok { s with saveSequence := record }) := by
  simp only [step,start,h.lastHeight,ok_bind,pure_eq_ok,← h.height]

lemma Stands.checkSequenceStatus_eq (record : Bool) :
    checkSequenceStatus su { s with saveSequence := record } record =
      if record then .ok (decide ((log = [] ∧ c.chain ≠ []) ∨ log.length < c.chain.length))
      else if log ≠ [] then .error (.panic "can not disable isRecordBlockSequence") else .ok false := by
  have hld : orAbsent "" (loadBlockLastSequence su { s with saveSequence := record }) =
      .ok (log.length-1) := by
    have hla : loadBlockLastSequence su { s with saveSequence := record } = readInt64 su (lastNumber su log) :=
      congrArg (readInt64 su) h.last
    rw [hla,orAbsent_lastNumber]
  have hl : (log.length : ℤ)-1 = -1 ↔ log = [] := by
    rw [← length_eq_zero_iff]
    omega
  have hchain : s.height ≠ -1 ↔ c.chain ≠ [] := by
    rw [h.height,← length_pos_iff]
    omega
  have hls : s.height > (log.length : ℤ)-1 ↔ log.length < c.chain.length := by
    rw [h.height]
    omega
  unfold checkSequenceStatus
  rw [hld,ok_bind]
  cases record
  · simp only [Bool.false_eq_true,if_false,ne_eq,hl]
    split_ifs <;> rfl
  · simp only [if_true,hl,hchain,hls]
    rfl

lemma Stands.start (hk : KeysApart su blocks) (ho : c.recording = true → record = true) (bs : ℤ) :
    ∃ s' log', step su s (.start record bs) = .ok s' ∧
      Stands su blocks s' { c with recording := record } log' := by
  rw [h.start_eq,h.checkSequenceStatus_eq]
  cases record with
  | false =>
    have hlg : log = [] := h.silent (by simpa using ho)
    refine ⟨{ s with saveSequence := false },log,by simp [hlg],?_⟩
    exact h.restarted (.refl _) h.entries h.last (fun _ => hlg) (by simp)
  | true =>
    by_cases hc : (log = [] ∧ c.chain ≠ []) ∨ log.length < c.chain.length
    · -- only a store that did not record has a chain without a log
      have hof : c.recording = false := by
        by_contra hr
        have hl := h.length_le (by simpa using hr)
        rcases hc with ⟨hlg,hchain⟩ | hlt
        · exact hchain (eq_nil_of_length_eq_zero (by simpa [hlg] using hl))
        · omega
      obtain rfl : log = [] := h.silent hof
      have hchain : c.chain ≠ [] := by
        rintro hn
        simp [hn] at hc
      obtain ⟨s',he,hs,hli,hla⟩ := createSequences_lists (s := { s with saveSequence := true })
        bs (Nat.zero_le c.chain.length) hchain h.height h.last h.entries
        (fun i hash hi => h.getBlockHeaderByHeight_eq hk hi)
      refine ⟨s',adds c.chain,by simpa [hchain] using he,?_⟩
      exact h.restarted hs hli hla (by simp) (fun _ => replay_adds c.chain)
    · refine ⟨{ s with saveSequence := true },log,by simp [hc],?_⟩
      refine h.restarted (.refl _) h.entries h.last (by simp) fun _ => ?_
      cases hr : c.recording with
      | true => exact h.replays hr
      | false =>
        obtain ⟨hso,-⟩ := not_or.mp hc
        have hlg := h.silent hr
        have hchain : c.chain = [] := by simpa [hlg] using hso
        rw [hlg,hchain]
        rfl

end

def saved (ops : List Op) : List Block :=
  ops.filterMap fun op => match op with
    | .save block _ => some block
    | _ => none

lemma Stands.step (h : Stands su blocks s c log) (hk : KeysApart su blocks) {op : Op}
    (ho : ∀ block ∈ saved [op], block ∈ blocks) (hnext : c.next su op = some c') :
    ∃ s' log', step su s op = .ok s' ∧ Stands su blocks s' c' log' := by
  cases op with
  | save block sequence =>
    simp only [Course.next] at hnext
    split_ifs at hnext with hheight
    cases hnext
    exact h.save hk (ho block (by simp [saved])) hheight sequence
  | del block sequence =>
    simp only [Course.next] at hnext
    split_ifs at hnext with ht
    cases hnext
    obtain ⟨hheight,hla⟩ := ht
    obtain ⟨chain,hchain⟩ := getLast?_eq_some_iff.mp hla
    have hl : c.chain.length = chain.length+1 := by simp [hchain]
    have hd : c.chain.dropLast = chain := by simp [hchain]
    rw [hd]
    exact h.del hchain (by omega) sequence
  | start record bs =>
    simp only [Course.next] at hnext
    split_ifs at hnext with hof
    cases hnext
    refine h.start hk (fun hr => ?_) bs
    simpa [hr] using hof

lemma Stands.run (h : Stands su blocks s c log) (hk : KeysApart su blocks) {ops : List Op}
    (ho : ∀ block ∈ saved ops, block ∈ blocks) (hf : c.follow su ops = some c') :
    ∃ s' log', run su s ops = .ok s' ∧ Stands su blocks s' c' log' := by
  induction ops generalizing s c log with
  | nil =>
    cases hf
    exact ⟨s,log,rfl,h⟩
  | cons op ops ih =>
    have hbi : (c.next su op).bind (fun next => next.follow su ops) = some c' := hf
    obtain ⟨next,hnext,hr⟩ := Option.bind_eq_some_iff.mp hbi
    have hsp : saved (op :: ops) = saved [op] ++ saved ops := filterMap_append (l := [op])
    rw [hsp] at ho
    obtain ⟨s1,log1,hst,hs⟩ := h.step hk
      (fun block hb => ho block (mem_append_left _ hb)) hnext
    obtain ⟨s',log',hrun,hs'⟩ := ih hs
      (fun block hb => ho block (mem_append_right _ hb)) hr
    refine ⟨s',log',?_,hs'⟩
    have hc : BlockStore.run su s (op :: ops) =
      (BlockStore.step su s op >>= fun next => BlockStore.run su next ops) := rfl
    rw [hc,hst,ok_bind,hrun]

end

/-- What is read back of a store: its last number and the entries up to it, which
replay to the chain that the height table holds. -/
structure Replays (su : Setup) (s : Store) (chain : List Bytes) (log : List BlockSequence) : Prop where
  last : orAbsent "" (loadBlockLastSequence su s) = .ok (log.length-1)
  dense : ∀ i : ℤ, getBlockSequence su s i = (cell log i).elim (.error .errHeightNotExist) .ok
  replays : replay [] (log.map entry) = some chain
  height : orAbsent "" (loadBlockStoreHeight su s) = .ok (chain.length-1)
  hashes : ∀ i : ℤ, getBlockHashByHeight s i = (cell chain i).elim (.error .errHeightNotExist) .ok

lemma Stands.read {c : Course} {log : List BlockSequence}
    (h : Stands su blocks s c log) (hr : c.recording = true) : Replays su s c.chain log where
  last := by rw [loadBlockLastSequence,h.last,orAbsent_lastNumber]
  dense i := by
    rw [getBlockSequence,h.entries i]
    cases cell log i with
    | none => rfl
    | some entry => simp [su.decodeSequence_encodeSequence]
  replays := h.replays hr
  height := h.lastHeight ""
  hashes i := by
    rw [getBlockHashByHeight,h.hashes i]
    cases cell c.chain i <;> rfl

/-- Every run that connects and disconnects blocks at the tip goes through, and when
it records, also after it did not at first, the log replays to the main chain. -/
theorem run_replays (su : Setup) (ops : List Op) (c : Course) (hk : KeysApart su (saved ops))
    (ho : (Course.mk [] false).follow su ops = some c) :
    ∃ s, run su .empty ops = .ok s ∧ (c.recording = true → ∃ log, Replays su s c.chain log) := by
  obtain ⟨s,log,hrun,hs⟩ := stands_empty.run hk (fun _ hb => hb) ho
  exact ⟨s,hrun,fun hr => ⟨log,hs.read hr⟩⟩

/-- Blocks that carry their own hash, and numbers in unary. -/
def unarySetup : Setup where
  hash block := block.txHash
  isParaChain := true
  encodeInt64
    | .ofNat n => 0 :: replicate n 0
    | .negSucc n => 1 :: replicate n 0
  decodeHeight
    | 0 :: rest => some rest.length
    | 1 :: rest => some (-rest.length-1)
    | _ => none
  encodeSequence
    | ⟨hash,.addBlock⟩ => 1 :: hash
    | ⟨hash,.delBlock⟩ => 2 :: hash
  decodeSequence
    | 1 :: hash => some ⟨hash,.addBlock⟩
    | 2 :: hash => some ⟨hash,.delBlock⟩
    | _ => none
  decodeHeight_encodeInt64 n := by
    cases n with
    | ofNat n => simp
    | negSucc n =>
      simp
      omega
  decodeSequence_encodeSequence entry := by obtain ⟨hash,_ | _⟩ := entry <;> rfl

def plainBlock (height : ℤ) (hash : Bytes) : Block := ⟨0,[],hash,[],height,0,0,[],0,none,[]⟩

/-- Two blocks before recording is turned on, then one that is replaced by another. -/
theorem run_replays_reorganised :
    ∃ s, run unarySetup .empty [.start false 100000,.save (plainBlock 0 [7]) 20,.save (plainBlock 1 [8]) 21,
        .start true 1,.save (plainBlock 2 [9]) 22,.del (plainBlock 2 [9]) 23,.save (plainBlock 2 [10]) 24] = .ok s ∧
      ∃ log, Replays unarySetup s [[7],[8],[10]] log := by
  refine (run_replays unarySetup _ ⟨[[7],[8],[10]],true⟩ ?_ ?_).imp fun s h => ⟨h.1,h.2 rfl⟩
  · decide
  · decide

section
variable (su : Setup) {s : Store} {type : SeqType} {block : Block} {sequence n : ℤ} {batch : Batch}

/-- `SaveBlock` or `DelBlock`, by the entry it records. -/
def record (s : Store) : SeqType → Block → ℤ → Except StoreError (Batch × ℤ)
  | .addBlock => saveBlock su s
  | .delBlock => delBlock su s

/-- The block's entry is written under the number, in the chain's own log or in that of the main
chain's numbers. -/
def RecordedUnder (batch : Batch) (type : SeqType) (block : Block) (n : ℤ) : Prop :=
  ∃ key ∈ [calcSequenceToHashKey n su.isParaChain,.seqToHash n],
    (key,some (su.encodeSequence ⟨su.hash block,type⟩)) ∈ batch.kvs

variable {su} {entry : BlockSequence}

lemma ownSequence_eq {height : ℤ} {kvs : List (Key × Option Bytes)}
    (h : ownSequence su s height entry = .ok (kvs,n)) : s.saveSequence = false ∧ kvs = [] ∧ n = 0 ∨
      s.saveSequence = true ∧ orAbsent "" (loadBlockLastSequence su s) = .ok (n-1) ∧
        kvs = sequenceKVs su (calcSequenceToHashKey n su.isParaChain)
          (calcHashToSequenceKey entry.hash su.isParaChain) (calcLastSeqKey su.isParaChain) entry n := by
  unfold ownSequence at h
  cases hsave : s.saveSequence with
  | false => simp_all
  | true =>
    rw [hsave] at h
    obtain ⟨l,hla,h⟩ := bind_eq_ok.mp h
    dsimp only at h
    split_ifs at h
    · cases h
    · cases h
      exact .inr ⟨rfl,by rw [hla,add_sub_cancel_right],rfl⟩

lemma record_eq (h : record su s type block sequence = .ok (batch,n))
    (hr : (s.saveSequence || su.isParaChain) = true) : ∃ ts own, (∀ kv ∈ ts, kv.1.isTable = true) ∧
      ownSequence su s block.height ⟨su.hash block,type⟩ = .ok own ∧
      batch.kvs = ts ++ own.1 ++ (if su.isParaChain then sequenceKVs su (.seqToHash sequence)
        (.hashToSeq (su.hash block)) .lastSequence ⟨su.hash block,type⟩ sequence else []) ∧
      n = if type = .addBlock then own.2 else -1 := by
  have hno : (!s.saveSequence && !su.isParaChain) = false := by
    rw [← Bool.not_or,hr]
    rfl
  have hsq : ∀ {height type ss}, saveBlockSequence su s (su.hash block) height type sequence = .ok ss →
      ∃ own, ownSequence su s height ⟨su.hash block,type⟩ = .ok own ∧ own.2 = ss.2 ∧
        ss.1 = own.1 ++ (if su.isParaChain then sequenceKVs su (.seqToHash sequence)
          (.hashToSeq (su.hash block)) .lastSequence ⟨su.hash block,type⟩ sequence else []) := by
    intro height type ss h
    obtain ⟨own,ho,h⟩ := bind_eq_ok.mp h
    refine ⟨own,ho,?_⟩
    cases hp : su.isParaChain <;> rw [hp] at h <;> cases h <;> simp
  cases type with
  | addBlock =>
    simp only [record,saveBlock,hno] at h
    obtain ⟨ss,hs,h⟩ := bind_eq_ok.mp h
    obtain ⟨own,ho,hn,hkvs⟩ := hsq hs
    cases h
    refine ⟨_,own,?_,ho,by rw [append_assoc,← hkvs],hn.symm⟩
    simp [Key.isTable]
  | delBlock =>
    simp only [record,delBlock,hno] at h
    obtain ⟨ss,hs,h⟩ := bind_eq_ok.mp h
    obtain ⟨own,ho,-,hkvs⟩ := hsq hs
    cases h
    refine ⟨_,own,?_,ho,by rw [append_assoc,← hkvs],rfl⟩
    simp [Key.isTable]

lemma mem_sequenceKVs {th hashTo l key : Key} {bs : Option Bytes}
    (h1 : key ≠ hashTo) (h2 : key ≠ l) : (key,bs) ∈ sequenceKVs su th hashTo l entry n ↔
      key = th ∧ bs = some (su.encodeSequence entry) := by
  unfold sequenceKVs
  split_ifs <;> simp [h1,h2]

section
variable (h : record su s type block sequence = .ok (batch,n)) (hr : (s.saveSequence || su.isParaChain) = true)
include h hr

/-- The numbers of a recorded block: the next one of the log, and on a parallel chain the main
chain's. -/
theorem recordedUnder_iff (m : ℤ) : RecordedUnder su batch type block m ↔
      s.saveSequence = true ∧ orAbsent "" (loadBlockLastSequence su s) = .ok (m-1) ∨
        su.isParaChain = true ∧ m = sequence := by
  obtain ⟨tables,own,ht,ho,hkvs,-⟩ := record_eq h hr
  have hs : ∀ k bs, (Key.seqToHash k,bs) ∉ tables := fun k bs hm => Bool.noConfusion (ht _ hm)
  have hpa : ∀ k bs, (Key.paraSeqToHash k,bs) ∉ tables := fun k bs hm => Bool.noConfusion (ht _ hm)
  unfold RecordedUnder
  rw [hkvs]
  rcases ownSequence_eq ho with ⟨hsave,ho,-⟩ | ⟨hsave,hla,ho⟩
  · have hp : su.isParaChain = true := by simpa [hsave] using hr
    simp [ho,hsave,hp,hs,hpa,mem_sequenceKVs,calcSequenceToHashKey]
  · cases hp : su.isParaChain <;>
      simp [ho,hsave,hp,hs,hpa,hla,mem_sequenceKVs,calcSequenceToHashKey,calcHashToSequenceKey,
        calcLastSeqKey,@eq_comm _ m]

/-- Where a block is recorded, the caller gets its number back if it was saved and the chain keeps its
own log; otherwise only if the number happens to be the one that is always returned. -/
theorem recorded_returned_iff : RecordedUnder su batch type block n ↔
      type = .addBlock ∧ (s.saveSequence = true ∨ sequence = 0) ∨
      type = .delBlock ∧ (s.saveSequence = true ∧ orAbsent "" (loadBlockLastSequence su s) = .ok (-2) ∨
        su.isParaChain = true ∧ sequence = -1) := by
  rw [recordedUnder_iff h hr]
  obtain ⟨tables,own,-,ho,-,rfl⟩ := record_eq h hr
  cases type with
  | addBlock =>
    rcases ownSequence_eq ho with ⟨hsave,-,hn⟩ | ⟨hsave,hla,-⟩
    · have hp : su.isParaChain = true := by simpa [hsave] using hr
      simpa [hsave,hn,hp] using eq_comm
    · simp [hsave,hla]
  | delBlock => simp [@eq_comm _ (-1)]

end

/-- The genesis block of a recording chain. -/
theorem saveBlock_returns_number : ∃ batch n,
    saveBlock unarySetup {Store.empty with saveSequence := true} (plainBlock 0 [7]) 20 = .ok (batch,n) ∧
      RecordedUnder unarySetup batch .addBlock (plainBlock 0 [7]) n :=
  ⟨_,_,rfl,(recorded_returned_iff (s := {Store.empty with saveSequence := true}) rfl rfl).mpr
    (.inl ⟨rfl,.inl rfl⟩)⟩

/-- The block is taken off the chain again and is recorded under 1, but the number that is returned is -1. -/
theorem delBlock_returns_none : ∃ s batch,
    run unarySetup .empty [.start true 1,.save (plainBlock 0 [7]) 20] = .ok s ∧
      delBlock unarySetup s (plainBlock 0 [7]) 21 = .ok (batch,-1) ∧
      RecordedUnder unarySetup batch .delBlock (plainBlock 0 [7]) 1 ∧
      ¬RecordedUnder unarySetup batch .delBlock (plainBlock 0 [7]) (-1) := by
  have hn : ∀ {s batch}, run unarySetup .empty [.start true 1,.save (plainBlock 0 [7]) 20] = .ok s →
      record unarySetup s .delBlock (plainBlock 0 [7]) 21 = .ok (batch,-1) → s.saveSequence = true →
      orAbsent "" (loadBlockLastSequence unarySetup s) = .ok 0 →
      RecordedUnder unarySetup batch .delBlock (plainBlock 0 [7]) 1 ∧
        ¬RecordedUnder unarySetup batch .delBlock (plainBlock 0 [7]) (-1) := by
    intro s batch _ h hsave hla
    rw [recordedUnder_iff h (by simp [hsave]),recordedUnder_iff h (by simp [hsave]),hla]
    simp [hsave]
  exact ⟨_,_,rfl,rfl,hn rfl rfl rfl rfl⟩

end
end Dpos.BlockStore
