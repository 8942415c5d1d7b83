import RougeChain.Consensus.Types
import RougeChain.Library.Text

/-!
# Signed texts are unambiguous

A signature over a vote's text is a signature for that vote only: on one chain
and in one domain, the text determines the type, the height, the round and the
block of the vote (`voteSignBytes_inj`), and no text of a proposal is the text of
a vote (`proposalSignBytes_ne_voteSignBytes`).

The fields are separated by `|`, which occurs neither in decimals nor in
hexadecimals (`Text.append_sep_inj`).
-/

namespace RougeChain.Consensus

theorem decimal_injective : Function.Injective decimal := Text.toDigits_injective

theorem bar_notMem_decimal (n : ℕ) : '|' ∉ decimal n := Text.notMem_toDigits (by decide) n

theorem hexDigit_inj {a b : UInt8} (ha : a.toNat < 16) (hb : b.toNat < 16)
    (h : BlockId.hexDigit a = BlockId.hexDigit b) : a = b := by
  have hdigits : ∀ i < 16, ∀ j < 16,
      ['0', '1', '2', '3', '4', '5', '6', '7', '8', '9', 'a', 'b', 'c', 'd', 'e', 'f'].getD i '0' =
        ['0', '1', '2', '3', '4', '5', '6', '7', '8', '9', 'a', 'b', 'c', 'd', 'e', 'f'].getD j '0' →
      i = j := by decide
  exact UInt8.toNat_inj.1 (hdigits _ ha _ hb h)

theorem hexByte_injective : Function.Injective BlockId.hexByte := by
  have hhi : ∀ b : UInt8, (b >>> 4).toNat = b.toNat / 16 := fun b => by
    rw [UInt8.toNat_shiftRight]
    exact Nat.shiftRight_eq_div_pow _ 4
  have hlo : ∀ b : UInt8, (b &&& 15).toNat = b.toNat % 16 := fun b => by
    rw [UInt8.toNat_and]
    exact Nat.and_two_pow_sub_one_eq_mod _ 4
  intro a b h
  have hlt := a.toNat_lt
  have hlt' := b.toNat_lt
  obtain ⟨h₁, h₂⟩ := List.cons.inj h
  have hdiv := congrArg UInt8.toNat (hexDigit_inj (by rw [hhi]; omega) (by rw [hhi]; omega) h₁)
  have hmod := congrArg UInt8.toNat
    (hexDigit_inj (by rw [hlo]; omega) (by rw [hlo]; omega) (List.cons.inj h₂).1)
  rw [hhi, hhi] at hdiv
  rw [hlo, hlo] at hmod
  exact UInt8.toNat_inj.1 (by omega)

theorem flatMap_hexByte_injective : Function.Injective fun bs : List UInt8 =>
    bs.flatMap BlockId.hexByte := by
  intro as bs h
  induction as generalizing bs with
  | nil =>
    cases bs with
    | nil => rfl
    | cons b bs => exact absurd h (by simp [BlockId.hexByte])
  | cons a as ih =>
    cases bs with
    | nil => exact absurd h (by simp [BlockId.hexByte])
    | cons b bs =>
      simp only [List.flatMap_cons] at h
      obtain ⟨hab, h⟩ := List.append_inj h rfl
      rw [hexByte_injective hab, ih h]

theorem hex_injective : Function.Injective BlockId.hex := by
  intro a b h
  have hbytes : a.bytes = b.bytes := flatMap_hexByte_injective h
  cases a
  cases b
  cases hbytes
  rfl

theorem length_hex (id : BlockId) : id.hex.length = 64 := by
  simp [BlockId.hex, List.length_flatMap, BlockId.hexByte, id.length_bytes]

theorem blockText_injective : Function.Injective blockText := by
  rintro (_ | a) (_ | b) h
  · rfl
  · exact absurd (congrArg List.length h) (by simp [blockText, length_hex])
  · exact absurd (congrArg List.length h) (by simp [blockText, length_hex])
  · rw [hex_injective h]

/-- What all texts of a chain start with. -/
def textHead (domain : Domain) (chainId : String) : List Char :=
  domain.tag.toList ++ "|chain=".toList ++ chainId.toList ++ "|type=".toList

theorem voteSignBytes_eq (domain : Domain) (chainId : String) (kind : VoteType) (height round : ℕ)
    (block : Option BlockId) : voteSignBytes domain chainId kind height round block =
      textHead domain chainId ++ (kind.name.toList ++ '|' :: ("height=".toList ++
        (decimal height ++ '|' :: ("round=".toList ++ (decimal round ++ '|' :: ("block=".toList ++
          blockText block)))))) := by
  rewrite [voteSignBytes, textHead]
  repeat rewrite [List.append_assoc]
  rfl

theorem name_injective : Function.Injective fun kind : VoteType => kind.name.toList := by
  intro a b h
  cases a <;> cases b <;> first | rfl | exact absurd h (by decide)

theorem bar_notMem_name (kind : VoteType) : '|' ∉ kind.name.toList := by
  cases kind <;> decide

/-- The text of a vote determines the vote. -/
theorem voteSignBytes_inj {domain : Domain} {chainId : String} {kind kind' : VoteType}
    {height height' round round' : ℕ} {block block' : Option BlockId}
    (h : voteSignBytes domain chainId kind height round block =
      voteSignBytes domain chainId kind' height' round' block') :
    kind = kind' ∧ height = height' ∧ round = round' ∧ block = block' := by
  rw [voteSignBytes_eq, voteSignBytes_eq] at h
  obtain ⟨hkind, h⟩ := Text.append_sep_inj (bar_notMem_name _) (bar_notMem_name _)
    (List.append_cancel_left h)
  obtain ⟨hheight, h⟩ := Text.append_sep_inj (bar_notMem_decimal _) (bar_notMem_decimal _)
    (List.append_cancel_left h)
  obtain ⟨hround, h⟩ := Text.append_sep_inj (bar_notMem_decimal _) (bar_notMem_decimal _)
    (List.append_cancel_left h)
  exact ⟨name_injective hkind, decimal_injective hheight, decimal_injective hround,
    blockText_injective (List.append_cancel_left h)⟩

theorem proposalSignBytes_eq (chainId : String) (height round : ℕ) (pol : Option ℕ)
    (id : BlockId) : proposalSignBytes chainId height round pol id =
      textHead .V3 chainId ++ ("proposal".toList ++ '|' :: ("height=".toList ++ (decimal height ++
        '|' :: ("round=".toList ++ (decimal round ++ '|' :: ("pol=".toList ++ (polText pol ++
          '|' :: ("block=".toList ++ id.hex)))))))) := by
  rewrite [proposalSignBytes, textHead]
  repeat rewrite [List.append_assoc]
  rfl

/-- No text of a proposal is the text of a vote. -/
theorem proposalSignBytes_ne_voteSignBytes {chainId : String} {kind : VoteType}
    {height height' round round' : ℕ} {pol : Option ℕ} {id : BlockId} {block : Option BlockId} :
    proposalSignBytes chainId height round pol id ≠
      voteSignBytes .V3 chainId kind height' round' block := by
  intro h
  rw [voteSignBytes_eq, proposalSignBytes_eq] at h
  obtain ⟨hkind, -⟩ := Text.append_sep_inj (by decide) (bar_notMem_name _) (List.append_cancel_left h)
  cases kind <;> exact absurd hkind (by decide)

end RougeChain.Consensus
