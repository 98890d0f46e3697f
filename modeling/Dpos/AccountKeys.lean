import Dpos.AccountBook
import Dpos.ExecBalance
import Dpos.ExecName

/-! The keys of accounts, over all executor names, symbols and addresses: their parts are read back
at the separators. -/
namespace Dpos.AccountDB
open List
open Executor (getExecKey)
open ExecBalance (symbolPrefix)

/-- A database as `NewAccountDB` makes it. -/
structure Spelled (su : Setup) (execer symbol : Bytes) : Prop where
  perfix : su.accountKeyPerfix = symbolPrefix execer symbol
  execer : 45 ∉ execer
  symbol : 45 ∉ symbol

variable {b : UInt8} {l : Bytes}

lemma takeWhile_sep (h : b ∉ l) (x : Bytes) : (l ++ b :: x).takeWhile (· ≠ b) = l := by
  rw [takeWhile_append_of_pos fun c hc => decide_eq_true (ne_of_mem_of_not_mem hc h)]
  simp

lemma after_sep (h : b ∉ l) (x : Bytes) : Executor.after b (l ++ b :: x) = some x := by
  rw [Executor.after,if_pos (by simp),dropWhile_append_of_pos fun c hc => decide_eq_true (ne_of_mem_of_not_mem hc h)]
  simp

lemma sep_inj {l' x x' : Bytes} (h : b ∉ l) (h' : b ∉ l') (he : l ++ b :: x = l' ++ b :: x') :
    l = l' ∧ x = x' := by
  refine ⟨?_,Option.some.inj ?_⟩
  · rw [← takeWhile_sep h x,he,takeWhile_sep h']
  · rw [← after_sep h,he,after_sep h']

section
variable {su su' : Setup} {execer symbol execer' symbol' : Bytes}

lemma Spelled.key_eq (h : Spelled su execer symbol) (rest : Bytes) :
    su.accountKeyPerfix ++ rest = Bytes.ofString "mavl-" ++ (execer ++ 45 :: (symbol ++ 45 :: rest)) := by
  simp [h.perfix,symbolPrefix,show Bytes.ofString "-" = [45] from rfl]

lemma Spelled.inj (h : Spelled su execer symbol) (h' : Spelled su' execer' symbol') {rest rest' : Bytes}
    (he : su.accountKeyPerfix ++ rest = su'.accountKeyPerfix ++ rest') :
    execer = execer' ∧ symbol = symbol' ∧ rest = rest' := by
  rw [h.key_eq,h'.key_eq,append_cancel_left_eq] at he
  obtain ⟨he,hr⟩ := sep_inj h.execer h'.execer he
  exact ⟨he,sep_inj h.symbol h'.symbol hr⟩

lemma execKey_eq (a e : Bytes) : execAccountKey su a e = su.accountKeyPerfix ++ (Bytes.ofString "exec-" ++ (e ++ 58 :: a)) := by
  simp [execAccountKey,execAccountKeyPerfix,show Bytes.ofString ":" = [58] from rfl]

lemma Spelled.getExecKey_eq (h : Spelled su execer symbol) (rest : Bytes) : getExecKey (su.accountKeyPerfix ++ rest) =
    if (Bytes.ofString "exec-").isPrefixOf rest ∧ 58 ∈ rest.drop 5 then some ((rest.drop 5).takeWhile (· ≠ 58))
    else none := by
  rw [h.key_eq,getExecKey,drop_left' (by decide : (Bytes.ofString "mavl-").length = 5),after_sep h.execer,
    Option.bind_eq_bind,Option.bind_some,after_sep h.symbol]
  rfl

/-- Keys of different arguments differ, keys of the two kinds differ, and `GetExecKey` tells the
contract of the one kind and nothing of the other. -/
theorem accountKeys_apart (h : Spelled su execer symbol) (h' : Spelled su' execer' symbol') (a a' e e' : Address) :
    (accountKey su a.text = accountKey su' a'.text → execer = execer' ∧ symbol = symbol' ∧ a = a') ∧
    (execAccountKey su a.text e.text = execAccountKey su' a'.text e'.text →
      execer = execer' ∧ symbol = symbol' ∧ e = e' ∧ a = a') ∧
    accountKey su a.text ≠ execAccountKey su' a'.text e'.text ∧
    getExecKey (execAccountKey su a.text e.text) = some e.text ∧ getExecKey (accountKey su a.text) = none := by
  have hd : 45 ∈ Bytes.ofString "exec-" := by decide
  refine ⟨fun he => ?_,fun he => ?_,fun he => ?_,?_,?_⟩
  · obtain ⟨hx,hs,ht⟩ := h.inj h' he
    exact ⟨hx,hs,Address.text_inj.mp ht⟩
  · rw [execKey_eq,execKey_eq] at he
    obtain ⟨hx,hs,ht⟩ := h.inj h' he
    obtain ⟨he,-,ha⟩ := (append_cons_inj_of_notMem e.no_colon a.no_colon).mp (append_cancel_left_eq .. ▸ ht)
    exact ⟨hx,hs,Address.text_inj.mp he,Address.text_inj.mp ha⟩
  · rw [execKey_eq] at he
    exact a.no_dash ((h.inj h' he).2.2 ▸ mem_append_left _ hd)
  · rw [execKey_eq,h.getExecKey_eq,drop_left' (by decide : (Bytes.ofString "exec-").length = 5),takeWhile_sep e.no_colon,if_pos (by simp)]
  · rw [accountKey,h.getExecKey_eq,if_neg]
    rintro ⟨hp,-⟩
    have hs := isPrefixOf_iff_prefix.mp hp
    exact a.no_dash (hs.subset hd)

end

/-- The address `a` and the contract `c`, for the coins of `dpos`. -/
theorem accountKeys_apart_coins : ∃ su a c, Spelled su (Bytes.ofString "coins") (Bytes.ofString "dpos") ∧
    accountKey su a ≠ execAccountKey su a c ∧ getExecKey (execAccountKey su a c) = some c := by
  have hs : Spelled ⟨symbolPrefix (Bytes.ofString "coins") (Bytes.ofString "dpos"),[],id,id,[]⟩
    (Bytes.ofString "coins") (Bytes.ofString "dpos") := ⟨rfl,by decide,by decide⟩
  obtain ⟨-,-,hn,hg,-⟩ := accountKeys_apart hs hs ⟨[97],by decide,by decide⟩ ⟨[97],by decide,by decide⟩
    ⟨[99],by decide,by decide⟩ ⟨[99],by decide,by decide⟩
  exact ⟨_,_,_,hs,hn,hg⟩

end Dpos.AccountDB
