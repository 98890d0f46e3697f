import Dpos.Broadcast

/-! Blocks whose bodies were moved to the chunk store of the network: the header is read from
the database, and the body comes from a chunk that peers hold. -/
namespace Dpos.ChunkStore
open Broadcast Crypto

structure BlockBody where
  txs : List Transaction
  receipts : List ReceiptData
  mainHash : Bytes
  mainHeight : ℤ

structure BlockDetail where
  block : Block
  receipts : List ReceiptData

/-- What a peer writes on a stream: bodies, and then closer peers or an error. -/
inductive Response
  | body (body : BlockBody)
  | other (closerPeers : List ℕ)

/-- The p2p module. `answer n pid` is the stream of peer `pid` for the `n`th request, if it can be
opened; `rounds` is how often the search goes on before the deadline. -/
structure Net where
  host : ℕ
  chunk : Bytes → Option (List BlockBody)
  nearestPeers : Bytes → List ℕ
  answer : ℕ → ℕ → Option (List Response)
  findPeers : Option (List ℕ)
  rounds : ℕ

/-- The loop over the stream, which ends in an error if the stream does. -/
def readBodys : List Response → Option (List BlockBody × List ℕ)
  | [] => none
  | .other closerPeers :: _ => some ([],closerPeers)
  | .body body :: rest => (readBodys rest).map fun r => (body :: r.1,r.2)

section
variable (net : Net) (count : ℤ)

/-- The bodies are counted and not looked at. -/
def fetchChunkFromPeer (n pid : ℕ) : Option (Option (List BlockBody) × List ℕ) :=
  match (net.answer n pid).bind readBodys with
  | none => none
  | some (bodys,closerPeers) =>
    if bodys.length = count then some (some bodys,closerPeers)
    else if closerPeers = [] then none
    else some (none,closerPeers)

/-- One round of the search: bodies, or the peers to ask next. -/
def askPeers : ℕ → List ℕ → List ℕ → Option (List BlockBody) × List ℕ × ℕ × List ℕ
  | n, searched, [] => (none,[],n,searched)
  | n, searched, pid :: peers =>
    if pid ∈ searched then askPeers n searched peers
    else
      match fetchChunkFromPeer net count n pid with
      | none => askPeers (n+1) (pid :: searched) peers
      | some (bodys,nearerPeers) => (bodys,nearerPeers,n+1,pid :: searched)

def search : ℕ → ℕ → List ℕ → List ℕ → Option (List BlockBody) × ℕ
  | 0, n, _, _ => (none,n)
  | rounds+1, n, searched, peers =>
    if peers = [] then (none,n)
    else
      match askPeers net count n searched peers with
      | (some bodys,_,n,_) => (some bodys,n)
      | (none,nearerPeers,n,searched) => search rounds n searched nearerPeers

/-- `fetchChunkFromFullPeer` for one full node after the other. -/
def askFullPeers : ℕ → List ℕ → Option (List BlockBody)
  | _, [] => none
  | n, pid :: peers =>
    if pid = net.host then askFullPeers n peers
    else
      match fetchChunkFromPeer net count n pid with
      | some (some bodys,_) => some bodys
      | some (none,closer :: _) =>
        match fetchChunkFromPeer net count (n+1) closer with
        | some (some bodys,_) => some bodys
        | _ => askFullPeers (n+2) peers
      | _ => askFullPeers (n+1) peers

def mustFetchChunk (chunkHash : Bytes) : Option (List BlockBody) :=
  match search net count net.rounds 0 [net.host] (net.nearestPeers chunkHash) with
  | (some bodys,_) => some bodys
  | (none,n) => askFullPeers net count n (net.findPeers.getD [])

end

inductive LoadError
  | errHashNotExist
  | panic
  deriving DecidableEq

/-- `getChunkBlock` for a request, where `%` by zero and slice bounds out of range panic. -/
def getChunkBlocks (items : List BlockBody) (start stop : ℤ) : Except LoadError (List BlockBody) :=
  if items = [] then .error .panic
  else
    let s := start.tmod items.length
    let e := stop.tmod items.length+1
    if 0 ≤ s ∧ s ≤ e then .ok ((items.take e.toNat).drop s.toNat) else .error .panic

/-- `getChunk` for the chunk info from `height` to `height`. -/
def getChunk (net : Net) (chunkHash : Bytes) (height : ℤ) : Except LoadError (List BlockBody) :=
  match net.chunk chunkHash with
  | some items => getChunkBlocks items height height
  | none =>
    match mustFetchChunk net (height-height+1) chunkHash with
    | none => .error .errHashNotExist
    | some bodys => .ok bodys

/-- The hash that `saveBlockForTable` puts in a header. -/
def headerHash (c : Crypto) (cfg : Config) (h : LtHeader) : Bytes :=
  if cfg.isFork h.height .blockHash then c.sha256 (c.encodeHeader h.toHeader)
  else c.sha256 (c.encodeHeader ⟨h.version,h.parentHash,h.txHash,[],h.height,h.blockTime,0,0⟩)

/-- The tables under the keys of an index, the chunk hash of a block hash, and the settings.
Every row of the header table was made by `saveBlockForTable`. -/
structure Store (c : Crypto) (cfg : Config) where
  getHeader : Bytes → Option LtHeader
  getBody : Bytes → Option BlockBody
  getReceipt : Bytes → Option (List ReceiptData)
  chunkHash : Bytes → Option Bytes
  height : ℤ
  reduceHeight : ℤ
  reduceLocaldb : Bool
  disableShard : Bool
  enableFetchP2pstore : Bool
  getHeader_hash : ∀ key h, getHeader key = some h → h.hash = headerHash c cfg h

variable {c : Crypto} {cfg : Config}

section
variable (s : Store c cfg) (net : Net) (key : Bytes)

def getBodyFromP2Pstore (hash : Bytes) (height : ℤ) : Except LoadError (List BlockBody) :=
  match s.chunkHash hash with
  | none => .error .errHashNotExist
  | some value => getChunk net value height

def multiGetBody (h : LtHeader) : Except LoadError BlockBody :=
  match s.getBody key with
  | some body => .ok body
  | none =>
    if !s.disableShard && s.enableFetchP2pstore then do
      let bodys ← getBodyFromP2Pstore s net h.hash h.height
      match bodys with
      | [] => .error .errHashNotExist
      | body :: _ => .ok body
    else .error .errHashNotExist

def blockReceipt (h : LtHeader) (body : BlockBody) : Except LoadError (List ReceiptData) :=
  if s.reduceLocaldb = false ∨ s.height < h.height+s.reduceHeight then
    match s.getReceipt key with
    | some receipts => .ok receipts
    | none => if s.reduceLocaldb = false then .error .errHashNotExist else .ok body.receipts
  else .ok body.receipts

def detail (h : LtHeader) (body : BlockBody) (receipts : List ReceiptData) : BlockDetail :=
  ⟨{h.block with txs := body.txs, mainHeight := body.mainHeight, mainHash := body.mainHash},receipts⟩

def loadBlockByIndex : Except LoadError BlockDetail :=
  match s.getHeader key with
  | none => .error .errHashNotExist
  | some h => do
    let body ← multiGetBody s net key h
    let receipts ← blockReceipt s key h body
    return detail h body receipts

end

/-! ### Bodies that belong to a header -/

/-- A detail has the height and the hash of the header, and its transactions the root. -/
def Faithful (c : Crypto) (cfg : Config) (ncpu : ℕ) (h : LtHeader) (d : BlockDetail) : Prop :=
  d.block.height = h.height ∧ d.block.hash c cfg = h.hash ∧
    Merkle.calcMerkleRoot c ncpu (cfg.isFork h.height .rootHash) d.block.txs = some h.txHash

/-- The transactions have the root of the header and, where the hash of a block counts them,
are as many as the header says. -/
def BlockBody.Belongs (c : Crypto) (cfg : Config) (ncpu : ℕ) (h : LtHeader) (body : BlockBody) : Prop :=
  Merkle.calcMerkleRoot c ncpu (cfg.isFork h.height .rootHash) body.txs = some h.txHash ∧
    (cfg.isFork h.height .blockHash → (body.txs.length : ℤ) = h.txCount)

/-- Whatever the node or a peer holds for a chunk is one of the given bodies. -/
structure Net.Serves (net : Net) (bodies : Set BlockBody) : Prop where
  chunk : ∀ chunkHash items, net.chunk chunkHash = some items → ∀ body ∈ items, body ∈ bodies
  answer : ∀ n pid rs, net.answer n pid = some rs → ∀ body, .body body ∈ rs → body ∈ bodies

/-- The bodies that may be read for a header: the stored one, or those of the network. -/
def Store.sources (s : Store c cfg) (key : Bytes) (h : LtHeader) (bodies : Set BlockBody) :
    Set BlockBody :=
  match s.getBody key with
  | some body => {body}
  | none => {body ∈ bodies | s.disableShard = false ∧ s.enableFetchP2pstore = true ∧
      (s.chunkHash h.hash).isSome}

variable {s : Store c cfg} {net : Net} {bodies : Set BlockBody} {count : ℤ}

variable {bodys : List BlockBody} {h : LtHeader}

variable {closerPeers : List ℕ} {n : ℕ} {searched peers : List ℕ} {key : Bytes} {body : BlockBody}

lemma readBodys_mem {rs : List Response}
    (h : readBodys rs = some (bodys,closerPeers)) : ∀ body ∈ bodys, .body body ∈ rs := by
  induction rs generalizing bodys with
  | nil => cases h
  | cons r rs ih =>
    cases r with
    | other cl =>
      cases h
      simp
    | body b =>
      obtain ⟨⟨bodys',cl⟩,hr,he⟩ := Option.map_eq_some_iff.mp h
      cases he
      intro body hb
      rcases List.mem_cons.mp hb with rfl | hb
      · simp
      · exact List.mem_cons_of_mem _ (ih hr body hb)

section
variable (hn : net.Serves bodies)
include hn

lemma fetchChunkFromPeer_mem {pid : ℕ}
    (h : fetchChunkFromPeer net count n pid = some (some bodys,closerPeers)) :
    ∀ body ∈ bodys, body ∈ bodies := by
  unfold fetchChunkFromPeer at h
  split at h
  · cases h
  · rename_i bodys' closer hr
    obtain ⟨rs,hrs,hr⟩ := Option.bind_eq_some_iff.mp hr
    split_ifs at h
    · cases h
      exact fun body hb => hn.answer n pid rs hrs body (readBodys_mem hr body hb)
    · cases h

lemma askPeers_mem
    (h : (askPeers net count n searched peers).1 = some bodys) : ∀ body ∈ bodys, body ∈ bodies := by
  induction peers generalizing n searched with
  | nil => cases h
  | cons pid peers ih =>
    rw [askPeers] at h
    split_ifs at h
    · exact ih h
    · split at h
      · exact ih h
      · rename_i hf
        cases h
        exact fetchChunkFromPeer_mem hn hf

lemma search_mem {rs : ℕ} (h : (search net count rs n searched peers).1 = some bodys) :
    ∀ body ∈ bodys, body ∈ bodies := by
  induction rs generalizing n searched peers with
  | zero => cases h
  | succ rs ih =>
    rw [search] at h
    split_ifs at h
    split at h
    · rename_i ha
      cases h
      exact askPeers_mem hn (congrArg Prod.fst ha)
    · exact ih h

lemma askFullPeers_mem (h : askFullPeers net count n peers = some bodys) : ∀ body ∈ bodys, body ∈ bodies := by
  induction peers generalizing n with
  | nil => cases h
  | cons pid peers ih =>
    rw [askFullPeers] at h
    split_ifs at h
    · exact ih h
    · split at h
      · rename_i hf
        cases h
        exact fetchChunkFromPeer_mem hn hf
      · split at h
        · rename_i hf
          cases h
          exact fetchChunkFromPeer_mem hn hf
        · exact ih h
      · exact ih h

lemma getChunk_mem {ch : Bytes} {height : ℤ}
    (h : getChunk net ch height = .ok bodys) : ∀ body ∈ bodys, body ∈ bodies := by
  unfold getChunk at h
  split at h
  · rename_i items hi
    rw [getChunkBlocks] at h
    dsimp only at h
    split_ifs at h
    cases h
    exact fun body hb => hn.chunk ch items hi body (List.mem_of_mem_take (List.mem_of_mem_drop hb))
  · split at h
    · cases h
    · rename_i hf
      cases h
      unfold mustFetchChunk at hf
      split at hf
      · rename_i hs
        cases hf
        exact search_mem hn (congrArg Prod.fst hs)
      · exact askFullPeers_mem hn hf

lemma multiGetBody_mem_sources (hbo : multiGetBody s net key h = .ok body) : body ∈ s.sources key h bodies := by
  unfold multiGetBody at hbo
  unfold Store.sources
  split at hbo
  · cases hbo
    simp
  · split_ifs at hbo with hf
    obtain ⟨bodys,hb,hf1⟩ := bind_eq_ok.mp hbo
    cases bodys with
    | nil => cases hf1
    | cons first rest =>
      cases hf1
      unfold getBodyFromP2Pstore at hb
      split at hb
      · cases hb
      · rename_i value hv
        have hi := getChunk_mem hn hb body (by simp)
        simp only [Bool.and_eq_true,Bool.not_eq_true'] at hf
        exact ⟨hi,hf.1,hf.2,by simp [hv]⟩

end

/-- A network of one peer that returns the given bodies for every chunk. -/
def Net.ofBodys (bodys : List BlockBody) : Net where
  host := 0
  chunk _ := none
  nearestPeers _ := [1]
  answer _ _ := some (bodys.map .body ++ [.other []])
  findPeers := none
  rounds := 1

lemma Net.ofBodys_serves (h : ∀ body ∈ bodys, body ∈ bodies) : (Net.ofBodys bodys).Serves bodies where
  chunk _ _ hi := by cases hi
  answer n pid rs hr body hb := by
    cases hr
    exact h body (by simpa using hb)

lemma exists_multiGetBody (hi : body ∈ s.sources key h bodies) :
    ∃ net : Net, net.Serves bodies ∧ multiGetBody s net key h = .ok body := by
  unfold Store.sources at hi
  unfold multiGetBody
  split at hi
  · obtain rfl := Set.mem_singleton_iff.mp hi
    exact ⟨.ofBodys [],Net.ofBodys_serves (by simp),rfl⟩
  · obtain ⟨hb,hs,he,hc⟩ := hi
    obtain ⟨v,hv⟩ := Option.isSome_iff_exists.mp hc
    refine ⟨.ofBodys [body],Net.ofBodys_serves (by simpa using hb),?_⟩
    simp [hs,he,getBodyFromP2Pstore,hv,getChunk,mustFetchChunk,search,askPeers,
      fetchChunkFromPeer,readBodys,Net.ofBodys]

lemma blockReceipt_isOk (key : Bytes) (h : LtHeader) (body : BlockBody) :
    (∃ rs, blockReceipt s key h body = .ok rs) ↔ (s.getReceipt key).isSome ∨ s.reduceLocaldb = true := by
  unfold blockReceipt
  cases s.getReceipt key with
  | some rs => split_ifs <;> simp
  | none => cases s.reduceLocaldb <;> simp

lemma detail_hash (hc : c.Ideal) (hh : s.getHeader key = some h) (body : BlockBody)
    (rs : List ReceiptData) : (detail h body rs).block.hash c cfg = h.hash ↔
      (cfg.isFork h.height .blockHash → (body.txs.length : ℤ) = h.txCount) := by
  rw [s.getHeader_hash key h hh]
  change (if cfg.isFork h.height .blockHash then _ else _) = _ ↔ _
  unfold headerHash
  split_ifs with hf
  · rw [hc.sha256_injective.eq_iff,hc.encodeHeader_injective.eq_iff]
    obtain ⟨⟨⟩,_,_⟩ := h
    simp [detail,LtHeader.block,Block.getHeaderHashNew,hf]
  · simp [detail,LtHeader.block,Block.getHeaderHashOld,hf]

lemma detail_faithful_iff (hc : c.Ideal) (hh : s.getHeader key = some h) (nc : ℕ)
    (body : BlockBody) (rs : List ReceiptData) :
    Faithful c cfg nc h (detail h body rs) ↔ body.Belongs c cfg nc h := by
  unfold Faithful BlockBody.Belongs
  rw [detail_hash hc hh]
  tauto

lemma loadBlockByIndex_ok (hh : s.getHeader key = some h) {d : BlockDetail} :
    loadBlockByIndex s net key = .ok d ↔ ∃ body, multiGetBody s net key h = .ok body ∧
        ∃ rs, blockReceipt s key h body = .ok rs ∧ detail h body rs = d := by
  simp only [loadBlockByIndex,hh,bind_eq_ok,pure_eq_ok,Except.ok.injEq]

/-- **Details of a stored header**: whatever the network returns out of the given bodies,
what `loadBlockByIndex` returns has the height, the hash and the root of the header, exactly if
every body that may be read for the header belongs to it. -/
theorem loadBlockByIndex_faithful_iff (hc : c.Ideal) (ncpu : ℕ) (s : Store c cfg) (key : Bytes)
    (bodies : Set BlockBody) : (∀ net : Net, net.Serves bodies → ∀ d, loadBlockByIndex s net key = .ok d →
      ∃ h, s.getHeader key = some h ∧ Faithful c cfg ncpu h d) ↔
    ∀ h, s.getHeader key = some h → ((s.getReceipt key).isSome ∨ s.reduceLocaldb = true) →
      ∀ body ∈ s.sources key h bodies, body.Belongs c cfg ncpu h := by
  constructor
  · intro ha h hh hrc body hb
    obtain ⟨net,hn,hg⟩ := exists_multiGetBody hb
    obtain ⟨receipts,hr⟩ := (blockReceipt_isOk key h body).mpr hrc
    obtain ⟨h',hh',hf⟩ := ha net hn _
      ((loadBlockByIndex_ok hh).mpr ⟨body,hg,receipts,hr,rfl⟩)
    cases hh.symm.trans hh'
    exact (detail_faithful_iff hc hh ncpu body receipts).mp hf
  · intro ha net hn d hd
    cases hh : s.getHeader key with
    | none =>
      simp only [loadBlockByIndex,hh] at hd
      cases hd
    | some h =>
      obtain ⟨body,hg,receipts,hr,rfl⟩ := (loadBlockByIndex_ok hh).mp hd
      have hbe := ha h hh ((blockReceipt_isOk key h body).mp ⟨receipts,hr⟩) body
        (multiGetBody_mem_sources hn hg)
      exact ⟨h,rfl,(detail_faithful_iff hc hh ncpu body receipts).mpr hbe⟩

def goodHeader : LtHeader := ⟨⟨0,[],goodBlock.txHash,[],1,0,1,0⟩,goodBlock.hash framed .allForks,none⟩

/-- The store of a node that has moved the body of `goodBlock` to the chunk store. -/
def movedStore : Store framed .allForks where
  getHeader _ := some goodHeader
  getBody _ := none
  getReceipt _ := some []
  chunkHash _ := some [7]
  height := 1
  reduceHeight := 10000
  reduceLocaldb := false
  disableShard := false
  enableFetchP2pstore := true
  getHeader_hash key h hh := by
    cases hh
    decide +kernel

theorem loadBlockByIndex_takes_any_body : ∃ d,
    loadBlockByIndex movedStore (.ofBodys [⟨[],[],[],0⟩]) [] = .ok d ∧ d.block.txs = [] ∧
      d.block.txHash = goodHeader.txHash ∧ d.block.hash framed .allForks ≠ goodHeader.hash ∧
      Merkle.calcMerkleRoot framed 1 true d.block.txs ≠ some goodHeader.txHash :=
  ⟨detail goodHeader ⟨[],[],[],0⟩ [],rfl,rfl,rfl,by decide +kernel,by decide +kernel⟩

theorem loadBlockByIndex_faithful_moved : framed.Ideal ∧
    ∀ net : Net, net.Serves {⟨goodBlock.txs,[],[],0⟩} → ∀ d, loadBlockByIndex movedStore net [] = .ok d →
        ∃ h, movedStore.getHeader [] = some h ∧ Faithful framed .allForks 1 h d := by
  refine ⟨framed_ideal,?_⟩
  refine (loadBlockByIndex_faithful_iff framed_ideal 1 movedStore [] _).mpr ?_
  rintro h hh - body ⟨hb,-⟩
  cases hh
  obtain rfl := Set.mem_singleton_iff.mp hb
  exact ⟨root_goodBlock,fun _ => rfl⟩

section
open List
variable (items : List BlockBody) (k : ℕ) (start stop : ℤ)

/-- The body of a height in the chunk that starts at `k*items.length`. -/
def bodyAt (height : ℤ) : Option BlockBody :=
  if k*items.length ≤ height then items[(height-k*items.length).toNat]? else none

/-- The stored bodies of all heights from `start` to `stop` are returned. -/
def Answers : Prop := ∃ bodys, getChunkBlocks items start stop = .ok bodys ∧
  bodys.map some = (range (stop+1-start).toNat).map fun i : ℕ => bodyAt items k (start+i)

variable {items k start stop} {h : ℤ}

lemma bodyAt_isSome (hb : (bodyAt items k h).isSome) :
    k*items.length ≤ h ∧ h < k*items.length+items.length := by
  rw [bodyAt] at hb
  split_ifs at hb with hk
  · simp only [isSome_getElem?] at hb
    omega
  · cases hb

lemma tmod_chunk (h1 : k*items.length ≤ h) (h2 : h < k*items.length+items.length) :
    h.tmod items.length = h-k*items.length := by
  have h0 : (0 : ℤ) ≤ k*items.length := by positivity
  rw [Int.tmod_eq_emod_of_nonneg (by omega),← Int.sub_mul_emod_self_right h k,Int.emod_eq_of_lt (by omega) (by omega)]

lemma answers_of_mem (h1 : k*items.length ≤ start) (hs : start ≤ stop) (h2 : stop < k*items.length+items.length) :
    Answers items k start stop := by
  have hne : items ≠ [] := by
    rintro rfl
    simp at h1 h2
    omega
  refine ⟨_,(if_neg hne).trans (if_pos ?_),?_⟩
  · rw [tmod_chunk h1 (by omega),tmod_chunk (by omega) h2]
    omega
  rw [tmod_chunk h1 (by omega),tmod_chunk (by omega) h2]
  refine ext_getElem? fun i => ?_
  by_cases hi : i < (stop+1-start).toNat
  · rw [getElem?_map,getElem?_drop,getElem?_take_of_lt (by omega),getElem?_map,getElem?_range hi,
      Option.map_some,bodyAt,if_pos (by omega),show (start+i-k*items.length).toNat = (start-k*items.length).toNat+i by omega,
      getElem?_eq_getElem (by omega),Option.map_some]
  · rw [getElem?_eq_none (by simp; omega),getElem?_eq_none (by simp; omega)]

/-- A request is answered exactly if it lies in the chunk, or is reversed and its bounds leave an
empty slice. -/
theorem answers_iff : Answers items k start stop ↔ items ≠ [] ∧
    (k*items.length ≤ start ∧ start ≤ stop ∧ stop < k*items.length+items.length ∨
      stop < start ∧ 0 ≤ start.tmod items.length ∧ start.tmod items.length = stop.tmod items.length+1) := by
  constructor
  · rintro ⟨bodys,hg,he⟩
    simp only [getChunkBlocks] at hg
    split_ifs at hg with hne
    cases hg
    refine ⟨hne,?_⟩
    by_cases hs : start ≤ stop
    · have hi : ∀ i : ℕ, start+i ≤ stop → (bodyAt items k (start+i)).isSome := by
        intro i hi
        have hm := mem_map_of_mem (f:=fun i : ℕ => bodyAt items k (start+i))
          (mem_range.mpr (by omega : i < (stop+1-start).toNat))
        rw [← he] at hm
        obtain ⟨b,-,hb⟩ := mem_map.mp hm
        exact hb ▸ rfl
      have h1 := bodyAt_isSome (hi 0 (by omega))
      have h2 := bodyAt_isSome (hi (stop-start).toNat (by omega))
      omega
    · have hlt := Int.tmod_lt_of_pos stop (by have := length_pos_iff.mpr hne; omega : (0 : ℤ) < items.length)
      have hl := congrArg length he
      simp only [length_map,length_drop,length_take,length_range] at hl
      omega
  · rintro ⟨hne,⟨h1,hs,h2⟩ | ⟨hs,h0,he⟩⟩
    · exact answers_of_mem h1 hs h2
    · refine ⟨_,(if_neg hne).trans (if_pos ⟨h0,he.le⟩),?_⟩
      rw [he,show (stop+1-start).toNat = 0 by omega,drop_eq_nil_of_le (by simp)]
      rfl

end

/-- An empty chunk, and a request across the end of a chunk of three. -/
theorem getChunkBlocks_panics : getChunkBlocks [] 0 0 = .error .panic ∧
    getChunkBlocks (.replicate 3 ⟨[],[],[],0⟩) 2 3 = .error .panic :=
  ⟨rfl,rfl⟩

end Dpos.ChunkStore
