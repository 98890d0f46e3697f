import Dpos.Merkle

/-! Sorting by title and the child chains of a sorted list. `TransactionSort` puts the
transactions of each title together and the main chain first, and the pass that looks for
changes of the title then finds each title once. -/
namespace Dpos

open List

variable {title : Bytes}

lemma mainChainName_lt (h : paraKey <+: title) : mainChainName < title := by
  obtain ⟨rest,rfl⟩ := h
  exact List.Lex.rel (by decide)

lemma prefix_of_getParaExecTitleName {e : Bytes} (h : getParaExecTitleName e = some title) :
    paraKey <+: title := by
  unfold getParaExecTitleName at h
  dsimp only at h
  split_ifs at h with hp
  cases h
  obtain ⟨rest,rfl⟩ := isPrefixOf_iff_prefix.mp hp
  rw [Nat.add_assoc,take_length_add_append]
  exact prefix_append _ _

lemma Transaction.title_cases (tx : Transaction) :
    getParaExecTitleName tx.execer = none ∧ tx.title = mainChainName ∨
      getParaExecTitleName tx.execer = some tx.title ∧ mainChainName < tx.title := by
  unfold title
  cases h : getParaExecTitleName tx.execer with
  | none => exact .inl ⟨rfl,rfl⟩
  | some t => exact .inr ⟨rfl,mainChainName_lt (prefix_of_getParaExecTitleName h)⟩

/-- The titles in the order of `TransactionSort`. -/
def sortedTitles (txs : List Transaction) : List Bytes :=
  (txs.map Transaction.title).dedup.insertionSort (· ≤ ·)

lemma sortedTitles_pairwise (txs : List Transaction) : (sortedTitles txs).Pairwise (· < ·) := by
  have hl : (sortedTitles txs).Pairwise (· ≤ ·) := pairwise_insertionSort _ _
  exact hl.imp₂ (fun _ _ => lt_of_le_of_ne) (nodup_titles txs)

variable {txs : List Transaction}

lemma mem_sortedTitles : title ∈ sortedTitles txs ↔ ∃ tx ∈ txs, tx.title = title := by simp [sortedTitles]

lemma transactionSort_perm (txs : List Transaction) : (transactionSort txs).Perm txs := by
  apply perm_iff_count.mpr
  intro tx
  have hc : ∀ l : List Transaction, (l.filter (·.title = tx.title)).count tx = l.count tx :=
    fun l => count_filter (by simp)
  rw [← hc,filter_transactionSort,hc]

lemma sortedTitles_transactionSort (txs : List Transaction) :
    sortedTitles (transactionSort txs) = sortedTitles txs := by
  have hp : (sortedTitles (transactionSort txs)).Perm (sortedTitles txs) := by
    apply (perm_ext_iff_of_nodup (nodup_titles _) (nodup_titles _)).mpr
    intro title
    change title ∈ sortedTitles _ ↔ title ∈ sortedTitles _
    simp only [mem_sortedTitles,mem_transactionSort]
  exact hp.eq_of_pairwise' (pairwise_insertionSort _ _) (pairwise_insertionSort _ _)

lemma transactionSort_idem (txs : List Transaction) :
    transactionSort (transactionSort txs) = transactionSort txs := by
  change (sortedTitles (transactionSort txs)).flatMap _ = (sortedTitles txs).flatMap _
  rw [sortedTitles_transactionSort]
  simp only [filter_transactionSort]

namespace Merkle

/-! ### The child chains of grouped transactions -/

abbrev Groups := List (Bytes × List Transaction)

/-- Title and start of each group, the first one starting at `i`. -/
def groupStarts : ℕ → Groups → List (Bytes × ℕ)
  | _,[] => []
  | i,(title,sub) :: groups => (title,i) :: groupStarts (i+sub.length) groups

variable {sub : List Transaction} {i n : ℕ} {groups : Groups}

lemma childStarts_main (hi : 0 < i) (fpt : Bytes)
    (h : ∀ tx ∈ sub, getParaExecTitleName tx.execer = none) (rest : List Transaction) :
    childStarts i fpt (sub ++ rest) = childStarts (i+sub.length) fpt rest := by
  induction sub generalizing i with
  | nil => rfl
  | cons tx sub ih =>
    have hnext := @ih (i+1) (by omega) (fun tx ht => h tx (mem_cons_of_mem _ ht))
    rw [cons_append,childStarts,h tx mem_cons_self]
    simp only [hi.ne',if_false,hnext,length_cons]
    congr 1
    omega

lemma childStarts_para (i : ℕ) (hne : title ≠ [])
    (h : ∀ tx ∈ sub, getParaExecTitleName tx.execer = some title) (rest : List Transaction) :
    childStarts i title (sub ++ rest) = childStarts (i+sub.length) title rest := by
  induction sub generalizing i with
  | nil => rfl
  | cons tx sub ih =>
    have hnext := ih (i+1) (fun tx ht => h tx (mem_cons_of_mem _ ht))
    rw [cons_append,childStarts,h tx mem_cons_self]
    simp only [hne,ne_eq,not_true_eq_false,or_self,if_false,hnext,length_cons]
    congr 1
    omega

def IsGroup (group : Bytes × List Transaction) : Prop := group.2 ≠ [] ∧ ∀ tx ∈ group.2, tx.title = group.1

lemma childStarts_groups (i : ℕ) {fristParaTitle : Bytes}
    (hgs : ∀ g ∈ groups, IsGroup g ∧ mainChainName < g.1) (hn : (fristParaTitle :: groups.map Prod.fst).Nodup) :
    childStarts i fristParaTitle (groups.flatMap Prod.snd) = groupStarts i groups := by
  induction groups generalizing i fristParaTitle with
  | nil => rfl
  | cons g groups ih =>
    obtain ⟨title,sub⟩ := g
    obtain ⟨⟨hs,ht⟩,hlt⟩ := hgs (title,sub) mem_cons_self
    have hp : ∀ tx ∈ sub, getParaExecTitleName tx.execer = some title := by
      intro tx htx
      rcases tx.title_cases with ⟨_,he⟩ | ⟨he,_⟩
      · rw [ht tx htx] at he
        exact absurd he hlt.ne'
      · rwa [ht tx htx] at he
    have hne : title ≠ [] := by
      rintro rfl
      exact absurd hlt (not_lt_nil _)
    obtain ⟨hnw,hn⟩ := nodup_cons.mp hn
    have hr := ih (i+sub.length) (fun g hg => hgs g (mem_cons_of_mem _ hg)) hn
    match sub,hs with
    | tx :: sub,_ =>
      have hf1 : title ≠ fristParaTitle := fun h => hnw (by simp [h])
      have hta := childStarts_para (i+1) hne (fun tx htx => hp tx (mem_cons_of_mem _ htx))
        (groups.flatMap Prod.snd)
      have hi : i+1+sub.length = i+(tx :: sub).length := by
        rw [length_cons]
        omega
      rw [flatMap_cons,cons_append,childStarts,hp tx mem_cons_self]
      simp only [hf1,ne_eq,not_false_eq_true,or_true,if_true,hta,groupStarts]
      rw [hi,hr]

lemma childStarts_sortedGroups (hgs : ∀ g ∈ groups, IsGroup g)
    (hs : (groups.map Prod.fst).Pairwise (· < ·)) :
    childStarts 0 [] (groups.flatMap Prod.snd) = groupStarts 0 groups := by
  have hni : ∀ groups : Groups, (∀ g ∈ groups, IsGroup g ∧ mainChainName < g.1) →
      (groups.map Prod.fst).Pairwise (· < ·) → ([] :: groups.map Prod.fst).Nodup := by
    intro groups hp hs
    refine nodup_cons.mpr ⟨fun hm => ?_,hs.imp fun h => h.ne⟩
    obtain ⟨g,hg,he⟩ := mem_map.mp hm
    exact absurd (he ▸ (hp g hg).2) (not_lt_nil _)
  match groups with
  | [] => rfl
  | (title,sub) :: groups =>
    obtain ⟨hf1,hr⟩ := pairwise_cons.mp hs
    have hse : ∀ g ∈ groups, title < g.1 := fun g hg => hf1 _ (mem_map_of_mem hg)
    obtain ⟨hsu,ht⟩ := hgs (title,sub) mem_cons_self
    obtain ⟨tx,sub,rfl⟩ := exists_cons_of_ne_nil hsu
    have htx := ht tx mem_cons_self
    rcases tx.title_cases with ⟨hn,hma⟩ | ⟨_,hlt⟩
    · obtain rfl : title = mainChainName := htx.symm.trans hma
      have hp : ∀ g ∈ groups, IsGroup g ∧ mainChainName < g.1 := fun g hg =>
        ⟨hgs g (mem_cons_of_mem _ hg),hse g hg⟩
      have hn' : ∀ tx ∈ sub, getParaExecTitleName tx.execer = none := by
        intro tx hm
        have he := ht tx (mem_cons_of_mem _ hm)
        rcases tx.title_cases with ⟨h,_⟩ | ⟨_,h⟩
        · exact h
        · exact absurd he h.ne'
      rw [flatMap_cons,cons_append,childStarts,hn]
      simp only [if_true]
      rw [childStarts_main Nat.one_pos [] hn',childStarts_groups _ hp (hni groups hp hr),
        groupStarts,length_cons,Nat.zero_add,Nat.add_comm 1]
    · rw [htx] at hlt
      have hp : ∀ g ∈ (title,tx :: sub) :: groups, IsGroup g ∧ mainChainName < g.1 := by
        intro g hg
        refine ⟨hgs g hg,?_⟩
        rcases mem_cons.mp hg with rfl | hg
        · exact hlt
        · exact hlt.trans (hse g hg)
      exact childStarts_groups 0 hp (hni _ hp hs)

lemma childTxs_groupStarts {f : List Transaction} {gs : Groups} (ht : txs = f ++ gs.flatMap Prod.snd) :
    childTxs txs (groupStarts f.length gs) = gs.map Prod.snd := by
  induction gs generalizing f with
  | nil => rfl
  | cons g gs ih =>
    rw [flatMap_cons,← append_assoc] at ht
    have hr := ih ht
    rw [length_append] at hr
    match gs with
    | [] => simp [groupStarts,childTxs,ht]
    | (title',sub') :: gs =>
      simp only [groupStarts] at hr ⊢
      rw [childTxs,hr,ht]
      simp

/-- Title, start and count of each group, as the child chains hold them. -/
def groupFields : ℕ → Groups → List (Bytes × ℤ × ℤ)
  | _,[] => []
  | i,(title,sub) :: groups =>
    (title,Word.wrap 32 i,Word.wrap 32 sub.length) :: groupFields (i+sub.length) groups

def ChildChain.fields (chain : ChildChain) : Bytes × ℤ × ℤ := (chain.title,chain.startIndex,chain.txCount)

lemma fields_zip (i : ℕ) {gs : Groups} {childlist : List Bytes} (h : gs.length = childlist.length) :
    let chains := ((groupStarts i gs).zip (childlist.zip (gs.map Prod.snd))).map
      fun (c,hash,sub) => (⟨c.1,Word.wrap 32 c.2,hash,Word.wrap 32 sub.length⟩ : ChildChain)
    chains.map ChildChain.fields = groupFields i gs ∧ chains.map ChildChain.childHash = childlist := by
  induction gs generalizing i childlist with
  | nil =>
    obtain rfl := length_eq_zero_iff.mp h.symm
    exact ⟨rfl,rfl⟩
  | cons g gs ih =>
    match childlist with
    | hash :: childlist =>
      have := ih (i+g.2.length) (by simpa using h)
      simpa [groupStarts,groupFields,ChildChain.fields] using this

lemma forall₂_of_mapM {α β : Type} {f : α → Option β} {l : List α} {bs : List β}
    (h : l.mapM f = some bs) : List.Forall₂ (fun a b => f a = some b) l bs := by
  induction l generalizing bs with
  | nil =>
    obtain rfl : [] = bs := Option.some.inj h
    exact .nil
  | cons a l ih =>
    rw [mapM_cons] at h
    obtain ⟨b,hb,h⟩ := Option.bind_eq_some_iff.mp h
    obtain ⟨bs,hbs,h⟩ := Option.bind_eq_some_iff.mp h
    cases h
    exact .cons hb (ih hbs)

/-- The child chains are the groups with their roots, and the root is that of the roots. -/
structure Layers (c : Crypto) (ncpu : ℕ) (groups : Groups) (root : Bytes) (chains : List ChildChain) :
    Prop where
  fields : chains.map ChildChain.fields = groupFields 0 groups
  child : List.Forall₂ (fun group hash => calcSingleLayerMerkleRoot c ncpu group.2 = some hash) groups
    (chains.map ChildChain.childHash)
  root : groups ≠ [] → getMerkleRoot (getHashFromTwoHash c) ncpu (chains.map ChildChain.childHash) = some root

lemma calcMultiLayerMerkleInfo_groups (c : Crypto) (n : ℕ) {gs : Groups}
    (hg : ∀ g ∈ gs, IsGroup g) (hso : (gs.map Prod.fst).Pairwise (· < ·)) :
    ∃ root chains, calcMultiLayerMerkleInfo c n (gs.flatMap Prod.snd) = some (root,chains) ∧
      Layers c n gs root chains := by
  have hsa := childStarts_sortedGroups hg hso
  have hs : childTxs (gs.flatMap Prod.snd) (groupStarts 0 gs) = gs.map Prod.snd :=
    @childTxs_groupStarts (gs.flatMap Prod.snd) [] gs rfl
  cases gs with
  | nil => exact ⟨zeroHash,[],rfl,rfl,.nil,fun h => absurd rfl h⟩
  | cons g gs =>
    have hne : (g :: gs).flatMap Prod.snd ≠ [] := by
      have := (hg g mem_cons_self).1
      simp [this]
    obtain ⟨root,chains,hi,_⟩ := calcMultiLayerMerkleInfo_rootOf c n hne (fun _ => True)
    refine ⟨root,chains,hi,?_⟩
    rw [calcMultiLayerMerkleInfo,if_neg hne,hsa] at hi
    cases gs with
    | nil =>
      obtain ⟨hash,hha,hr⟩ := Option.bind_eq_some_iff.mp hi
      cases hr
      refine ⟨by simp [ChildChain.fields,groupFields],.cons (by simpa using hha) .nil,fun _ => ?_⟩
      rw [getMerkleRoot,if_pos (.inl (by simp))]
      rfl
    | cons g' gs =>
      obtain ⟨ch,hc,hr⟩ := Option.bind_eq_some_iff.mp hi
      obtain ⟨hash,hha,hr⟩ := Option.bind_eq_some_iff.mp hr
      cases hr
      change (childTxs _ (groupStarts 0 (g :: g' :: gs))).mapM _ = _ at hc
      rw [hs] at hc
      have hc := forall₂_map_left_iff.mp (forall₂_of_mapM hc)
      obtain ⟨hf,hh⟩ := fields_zip 0 hc.length_eq
      rw [← hs] at hf hh
      refine ⟨hf,?_,fun _ => (congrArg _ hh).trans hha⟩
      rw [← hh] at hc
      exact hc

def titleGroups (txs : List Transaction) : Groups :=
  (sortedTitles txs).map fun title => (title,txs.filter (·.title = title))

lemma flatMap_titleGroups (txs : List Transaction) :
    (titleGroups txs).flatMap Prod.snd = transactionSort txs := by
  rw [titleGroups,flatMap_map]
  rfl

lemma map_fst_titleGroups (txs : List Transaction) : (titleGroups txs).map Prod.fst = sortedTitles txs := by
  simp [titleGroups,Function.comp_def]

lemma isGroup_of_mem {group : Bytes × List Transaction} (h : group ∈ titleGroups txs) : IsGroup group := by
  obtain ⟨title,ht,rfl⟩ := mem_map.mp h
  obtain ⟨tx,htx,he⟩ := mem_sortedTitles.mp ht
  refine ⟨ne_nil_of_mem (mem_filter.mpr ⟨htx,by simpa using he⟩),fun tx htx => ?_⟩
  simpa using (mem_filter.mp htx).2

lemma calcMultiLayerMerkleInfo_titleGroups (c : Crypto) (n : ℕ) (txs : List Transaction) :
    ∃ r chains, calcMultiLayerMerkleInfo c n (transactionSort txs) = some (r,chains) ∧
      Layers c n (titleGroups txs) r chains := by
  rw [← flatMap_titleGroups]
  exact calcMultiLayerMerkleInfo_groups c n (fun g hg => isGroup_of_mem hg)
    (by rw [map_fst_titleGroups]; exact sortedTitles_pairwise txs)

lemma wrap_of_lt (h : n < 2^31) : Word.wrap 32 n = n :=
  Word.wrap_eq_self (by constructor <;> push_cast <;> omega)

/-- Within the range of an `int32` the starts are running sums, and the slice at a start
is the group. -/
theorem groupFields_split {gs : Groups}
    (hl : i+(gs.flatMap Prod.snd).length < 2^31) {be a : List (Bytes × ℤ × ℤ)}
    {f : Bytes × ℤ × ℤ} (h : groupFields i gs = be ++ f :: a) :
    ∃ sub, ∃ k : ℕ, (f.1,sub) ∈ gs ∧ f.2.2 = sub.length ∧ f.2.1 = i+k ∧
      (be.map (·.2.2)).sum = k ∧ ((gs.flatMap Prod.snd).drop k).take sub.length = sub := by
  induction gs generalizing i be with
  | nil => simp [groupFields] at h
  | cons g gs ih =>
    obtain ⟨title,sub⟩ := g
    rw [flatMap_cons,length_append] at hl
    dsimp only at hl
    rw [groupFields,wrap_of_lt (by omega),wrap_of_lt (by omega)] at h
    match be with
    | [] =>
      obtain ⟨rfl,_⟩ := cons.inj h
      exact ⟨sub,0,mem_cons_self,rfl,by simp,rfl,by simp⟩
    | b :: be =>
      rw [cons_append] at h
      obtain ⟨rfl,ht⟩ := cons.inj h
      obtain ⟨sub',k,hm,hc,hst,hs,hsl⟩ := @ih (i+sub.length) (by omega) be ht
      refine ⟨sub',sub.length+k,mem_cons_of_mem _ hm,hc,?_,?_,?_⟩
      · rw [hst]
        push_cast
        ring
      · rw [map_cons,sum_cons,hs,Nat.cast_add]
      · rw [flatMap_cons,← drop_drop]
        simpa using hsl

lemma sum_groupFields {gs : Groups} (hl : i+(gs.flatMap Prod.snd).length < 2^31) :
    ((groupFields i gs).map (·.2.2)).sum = (gs.flatMap Prod.snd).length := by
  induction gs generalizing i with
  | nil => rfl
  | cons g gs ih =>
    rw [flatMap_cons,length_append] at hl ⊢
    rw [groupFields,map_cons,sum_cons,@ih (i+g.2.length) (by omega),
      wrap_of_lt (by omega),wrap_of_lt (by omega),Nat.cast_add]

lemma map_fst_groupFields (i : ℕ) (gs : Groups) : (groupFields i gs).map Prod.fst = gs.map Prod.fst := by
  induction gs generalizing i with
  | nil => rfl
  | cons g gs ih => simp [groupFields,ih]

lemma eq_filter_of_mem (h : (title,sub) ∈ titleGroups txs) : sub = txs.filter (·.title = title) := by
  obtain ⟨title',_,he⟩ := mem_map.mp h
  cases he
  rfl

/-- Fewer than `2^31` transactions: sorting permutes them and keeps the order within
every title, sorting again changes nothing, and the child chains of the sorted list are
the titles, once each, with the slices of their transactions. -/
theorem transactionSort_childChains (c : Crypto) (ncpu : ℕ) {txs : List Transaction} (hl : txs.length < 2^31) :
    (transactionSort txs).Perm txs ∧
    (∀ title, (transactionSort txs).filter (·.title = title) = txs.filter (·.title = title)) ∧
    transactionSort (transactionSort txs) = transactionSort txs ∧
    ∃ root chains, calcMultiLayerMerkleInfo c ncpu (transactionSort txs) = some (root,chains) ∧
      (chains.map ChildChain.title).Nodup ∧
      (∀ title, title ∈ chains.map ChildChain.title ↔ ∃ tx ∈ txs, tx.title = title) ∧
      (chains.map ChildChain.txCount).sum = txs.length ∧
      ∀ before chain after, chains = before ++ chain :: after →
        chain.startIndex = (before.map ChildChain.txCount).sum ∧
        chain.txCount = ((txs.filter (·.title = chain.title)).length : ℤ) ∧
        ((transactionSort txs).drop chain.startIndex.toNat).take chain.txCount.toNat =
          txs.filter (·.title = chain.title) := by
  have hp := transactionSort_perm txs
  obtain ⟨root,chains,hi,hf,-,-⟩ := calcMultiLayerMerkleInfo_titleGroups c ncpu txs
  have hso : 0+((titleGroups txs).flatMap Prod.snd).length < 2^31 := by
    rwa [flatMap_titleGroups,hp.length_eq,Nat.zero_add]
  have ht : chains.map ChildChain.title = sortedTitles txs := by
    rw [← map_fst_titleGroups,← map_fst_groupFields 0,← hf,map_map]
    rfl
  refine ⟨hp,filter_transactionSort txs,transactionSort_idem txs,root,chains,hi,?_,?_,?_,?_⟩
  · rw [ht]
    exact nodup_titles txs
  · intro title
    rw [ht,mem_sortedTitles]
  · have hs := sum_groupFields hso
    rw [← hf,map_map,flatMap_titleGroups,hp.length_eq] at hs
    exact hs
  · rintro before chain after rfl
    rw [map_append,map_cons] at hf
    obtain ⟨sub,k,hm,hc,hst,hs,hsl⟩ := groupFields_split hso hf.symm
    obtain rfl := eq_filter_of_mem hm
    rw [map_map] at hs
    rw [flatMap_titleGroups] at hsl
    have hst : chain.startIndex = k := hst.trans (by simp)
    have hc : chain.txCount = ((txs.filter (·.title = chain.title)).length : ℤ) := hc
    refine ⟨hst.trans hs.symm,hc,?_⟩
    rw [hst,hc]
    exact hsl

def bareTx (exec : String) : Transaction := ⟨Bytes.ofString exec,[],none,0,0,0,[],0,[],[]⟩

theorem transactionSort_childChains_mixed : ∃ root chains, calcMultiLayerMerkleInfo Crypto.framed 4
        (transactionSort [bareTx "user.p.b.x",bareTx "coins",bareTx "user.p.a.x",bareTx "user.p.b.y"]) =
        some (root,chains) ∧ (chains.map ChildChain.title).Nodup ∧ (chains.map ChildChain.txCount).sum = 4 := by
  obtain ⟨_,_,_,root,chains,hi,hn,_,hs,_⟩ := @transactionSort_childChains Crypto.framed 4
    [bareTx "user.p.b.x",bareTx "coins",bareTx "user.p.a.x",bareTx "user.p.b.y"] (by decide)
  exact ⟨root,chains,hi,hn,hs⟩

lemma calcMultiLayerMerkleInfo_replicate (c : Crypto) (nc : ℕ) (hn : n ≠ 0) (tx : Transaction) :
    ∃ r cs, calcMultiLayerMerkleInfo c nc (transactionSort (replicate n tx)) =
        some (r,cs) ∧ (cs.map ChildChain.txCount).sum = Word.wrap 32 n := by
  obtain ⟨r,cs,hi,hf,-,-⟩ :=
    calcMultiLayerMerkleInfo_titleGroups c nc (replicate n tx)
  have hg : titleGroups (replicate n tx) = [(tx.title,replicate n tx)] := by
    simp [titleGroups,sortedTitles,replicate_dedup hn]
  have hc : cs.map ChildChain.txCount = (cs.map ChildChain.fields).map (·.2.2) := by
    rw [map_map]
    rfl
  refine ⟨r,cs,hi,?_⟩
  rw [hc,hf,hg,groupFields,groupFields,map_cons,map_nil,sum_cons,sum_nil,add_zero,length_replicate]

/-- The count of `2^31` transactions of one chain is beyond an `int32`. -/
theorem calcMultiLayerMerkleInfo_overflow : ∃ root chains, calcMultiLayerMerkleInfo Crypto.framed 1
        (transactionSort (List.replicate (2^31) (bareTx "coins"))) = some (root,chains) ∧
      (chains.map ChildChain.txCount).sum ≠ (List.replicate (2^31) (bareTx "coins")).length := by
  obtain ⟨root,chains,hi,hs⟩ := calcMultiLayerMerkleInfo_replicate Crypto.framed 1
    (by norm_num : 2^31 ≠ 0) (bareTx "coins")
  have hw : Word.wrap 32 ((2^31 : ℕ) : ℤ) ≠ ((2^31 : ℕ) : ℤ) := by norm_num [Word.wrap,Int.bmod]
  refine ⟨root,chains,hi,?_⟩
  rwa [hs,length_replicate]

end Merkle
end Dpos
