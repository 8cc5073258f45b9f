import Gbasic.Crc
import Gbasic.LsmBytes
/-!
# CrcSame — the tables and the instruction compute CRC32C as it is defined

Eight bytes through eight tables are eight bytes one after the other (`slice_feed`), for a register's own bits may be
fed to an empty one and every byte then moves down alone.  The instruction's division gives the same remainder
(`instruction_feed`).  So `crc32c_extend` is the definition whichever of the two it runs, wherever the bytes are and
whatever the module's variables hold (`crc32cExtend_eq`), and so is the checksum that the store's files are written and
read with (`crc32c_eq`).
-/
namespace Gbasic
namespace Crc

open Register
open BitVec (toNat_ushiftRight xor_zero getLsbD_ofNat setWidth_eq toNat_xor)

/-! ## Bytes as bits -/

@[simp] theorem length_octet (b : Byte) : (octet b).length = 8 := length_bits _ _

theorem octets_nil : octets [] = [] := rfl

theorem octets_cons (b : Byte) (l : List Byte) : octets (b :: l) = octet b ++ octets l := rfl

theorem octets_append (l m : List Byte) : octets (l ++ m) = octets l ++ octets m := List.flatMap_append

@[simp] theorem length_octets : ∀ l : List Byte, (octets l).length = 8 * l.length
  | [] => rfl
  | b :: l => by
    rw [octets_cons, List.length_append, length_octet, length_octets l, List.length_cons]
    omega

theorem word_octet (b : Byte) : word 32 (octet b) = u32 b := by
  apply BitVec.eq_of_getLsbD_eq
  intro i hi
  rw [getLsbD_word, decide_eq_true hi, Bool.true_and, octet, bits]
  rcases Nat.lt_or_ge i 8 with h | h
  · simp [h]
  · have hlt : (u32 b).toNat < 2 ^ i :=
      (u32_toNat b ▸ b.isLt).trans_le (Nat.pow_le_pow_right (by decide) h : 2 ^ 8 ≤ 2 ^ i)
    simp [h, BitVec.getLsbD, Nat.testBit_lt_two_pow hlt]

theorem octet_injective : Function.Injective octet := by
  intro b b' h
  have hu : u32 b = u32 b' := by
    rw [← word_octet, h, word_octet]
  apply Fin.ext
  rw [← u32_toNat, hu, u32_toNat]

theorem octets_injective : ∀ {l m : List Byte}, octets l = octets m → l = m
  | [], [], _ => rfl
  | [], b :: m, h => by simpa using congrArg List.length h
  | b :: l, [], h => by simpa using congrArg List.length h
  | b :: l, b' :: m, h => by
    rw [octets_cons, octets_cons] at h
    obtain ⟨hb, hl⟩ := List.append_inj h (by rw [length_octet, length_octet])
    rw [octet_injective hb, octets_injective hl]

theorem octet_index {c d : U32} (hd : d.toNat < 256) (h : ∀ i, i < 8 → d.getLsbD i = c.getLsbD i) :
    octet (index d) = bits 8 c := by
  rw [octet, u32_index hd]
  exact List.map_congr_left (fun i hi => h i (List.mem_range.1 hi))

theorem octet_low (c : U32) : octet (index (c &&& 0xFF#32)) = bits 8 c := by
  have hones : ∀ i, i < 8 → (0xFF#32).getLsbD i = true := by decide
  refine octet_index (low_lt c) (fun i hi => ?_)
  rw [BitVec.getLsbD_and, hones i hi, Bool.and_true]

theorem octet_high (c : U32) : octet (index (c >>> 24)) = bits 8 (c >>> 24) := by
  refine octet_index ?_ (fun _ _ => rfl)
  rw [toNat_ushiftRight, Nat.shiftRight_eq_div_pow]
  have h := c.isLt
  omega

theorem feed_octet (c : U32) (p : Byte) : feed castagnoli c (octet p) =
    c >>> 8 ^^^ advance castagnoli 8 (u32 (index ((c ^^^ u32 p) &&& 0xFF#32))) := by
  have hout : u32 p >>> 8 = 0#32 := by
    apply BitVec.eq_of_toNat_eq
    rw [toNat_ushiftRight, u32_toNat, Nat.shiftRight_eq_div_pow, Nat.div_eq_of_lt p.isLt]
    rfl
  rw [feed_word castagnoli _ _ (by simp), word_octet, length_octet, advance_byte, BitVec.ushiftRight_xor_distrib, hout,
    xor_zero]

/-! ## The tables -/

section
variable {T : Table} (hT : Made T)
include hT

theorem byteStep_feed (c : U32) (p : Byte) : byteStep T c p = feed castagnoli c (octet p) := by
  rw [feed_octet, byteStep, hT]
  rfl

theorem entry_feed (t : Fin 8) (b : Byte) {l : List Byte} (h : l.length = t.val) :
    feed castagnoli 0#32 (octets (b :: l)) = T.entry t b ^^^ feed castagnoli 0#32 (octets l) := by
  rw [octets_cons, feed_append, feed_eq, feed_word castagnoli (octet b) _ (by simp), word_octet, BitVec.zero_xor,
    length_octets, length_octet, ← advance_add, h, hT]
  rfl

/-- **Eight bytes through eight tables.** -/
theorem slice_feed (c : U32) (p0 p1 p2 p3 p4 p5 p6 p7 : Byte) :
    let d := c ^^^ (u32 p0 ||| u32 p1 <<< 8 ||| u32 p2 <<< 16 ||| u32 p3 <<< 24)
    T.entry 7 (index (d &&& 0xFF#32)) ^^^ T.entry 6 (index (d >>> 8 &&& 0xFF#32)) ^^^
      T.entry 5 (index (d >>> 16 &&& 0xFF#32)) ^^^ T.entry 4 (index (d >>> 24)) ^^^
      T.entry 3 p4 ^^^ T.entry 2 p5 ^^^ T.entry 1 p6 ^^^ T.entry 0 p7 =
    feed castagnoli c (octets [p0, p1, p2, p3, p4, p5, p6, p7]) := by
  intro d
  have hword : word 32 (octets [p0, p1, p2, p3]) = u32 p0 ||| u32 p1 <<< 8 ||| u32 p2 <<< 16 ||| u32 p3 <<< 24 := by
    have hleft : octets [p0, p1, p2, p3] = octet p0 ++ octet p1 ++ octet p2 ++ octet p3 := by
      simp only [octets_cons, octets_nil, List.append_nil, List.append_assoc]
    simp only [hleft, word_append, word_octet, List.length_append, length_octet]
  have hd : octets [index (d &&& 0xFF#32), index (d >>> 8 &&& 0xFF#32), index (d >>> 16 &&& 0xFF#32),
      index (d >>> 24)] =
      bits 32 d := by
    have hsplit : bits 32 d = bits 8 d ++ (bits 8 (d >>> 8) ++ (bits 8 (d >>> 16) ++ bits 8 (d >>> 24))) := by
      refine (bits_add 8 24 d).trans ?_
      rw [bits_add 8 16, bits_add 8 8, ← BitVec.shiftRight_add, ← BitVec.shiftRight_add]
    rw [hsplit, ← octet_low, ← octet_low, ← octet_low, ← octet_high]
    simp only [octets_cons, octets_nil, List.append_nil]
  have hfeed : feed castagnoli c (octets [p0, p1, p2, p3, p4, p5, p6, p7]) =
      feed castagnoli 0#32 (octets [index (d &&& 0xFF#32), index (d >>> 8 &&& 0xFF#32), index (d >>> 16 &&& 0xFF#32),
        index (d >>> 24), p4, p5, p6, p7]) := by
    have h := feed_bits castagnoli c (octets [p0, p1, p2, p3]) (octets [p4, p5, p6, p7]) (length_octets _)
    rw [hword, ← hd, ← octets_append, ← octets_append] at h
    exact h
  have hnone : feed castagnoli 0#32 (octets []) = 0#32 := rfl
  rw [hfeed, entry_feed hT 7 _ rfl, entry_feed hT 6 _ rfl, entry_feed hT 5 _ rfl, entry_feed hT 4 _ rfl,
    entry_feed hT 3 _ rfl, entry_feed hT 2 _ rfl, entry_feed hT 1 _ rfl, entry_feed hT 0 _ rfl, hnone, xor_zero]
  simp only [BitVec.xor_assoc]

theorem sliceBy8_feed (c : U32) (data : List Byte) :
    feed castagnoli (sliceBy8 T c data).1 (octets (sliceBy8 T c data).2) = feed castagnoli c (octets data) := by
  fun_induction sliceBy8 T c data with
  | case1 c p0 p1 p2 p3 p4 p5 p6 p7 p d ih =>
    rw [ih, slice_feed hT, ← feed_append, ← octets_append]
    rfl
  | case2 c p h => rfl

theorem foldl_byteStep (c : U32) (data : List Byte) :
    data.foldl (byteStep T) c = feed castagnoli c (octets data) := by
  induction data generalizing c with
  | nil => rfl
  | cons p data ih => rw [List.foldl_cons, ih, byteStep_feed hT, octets_cons, feed_append]

end

theorem does_crcReady : Does (fun _ => True) crcReady (fun _ s => Made s.table) := by
  refine Does.get (fun s _ => Does.ite (fun _ => ?_) (fun h => ?_))
  · exact fun s _ => (crcInit s).2.made rfl
  · refine Does.pure (fun s' hs => ?_)
    rw [hs]
    exact s.made (Bool.not_eq_false _ ▸ h)

theorem does_crc32cExtendPortable (crc : U32) (data : List Byte) :
    Does (fun _ => True) (crc32cExtendPortable crc data) (fun c _ => c = bitwise crc data) := by
  refine does_crcReady.bind (fun _ => Does.get (fun s hs => Does.pure (fun _ _ => ?_)))
  show ~~~(sliceBy8 s.table (~~~crc) data).2.foldl (byteStep s.table) (sliceBy8 s.table (~~~crc) data).1 = _
  rw [foldl_byteStep hs, sliceBy8_feed hs, bitwise]

/-! ## The instruction -/

/-- **The instruction feeds its source**, the lowest bit first. -/
theorem instruction_feed (c : U32) {k : Nat} (x : BitVec k) : instruction c x = feed castagnoli c (bits k x) := by
  have hdivisor : (0x11EDC6F41#33) = divisor castagnoli := by decide +kernel
  rw [instruction, hdivisor, reverse_mod2]

theorem byteStepHw_feed (c : BitVec 64) (p : Byte) :
    (byteStepHw c p).setWidth 32 = feed castagnoli (c.setWidth 32) (octet p) := by
  have hbits : bits 8 (BitVec.ofNat 8 p.val) = octet p := by
    refine List.map_congr_left (fun i hi => ?_)
    have h8 := List.mem_range.1 hi
    rw [u32, getLsbD_ofNat, getLsbD_ofNat, decide_eq_true h8,
      decide_eq_true (Nat.lt_of_lt_of_le h8 (by decide : 8 ≤ 32))]
  rw [byteStepHw, BitVec.setWidth_setWidth_of_le _ (by decide), setWidth_eq, crc32qi, instruction_feed, hbits]

theorem bits_leNat {w : Nat} : ∀ l : List Byte, 8 * l.length ≤ w →
    bits (8 * l.length) (BitVec.ofNat w (leNat l)) = octets l
  | [], _ => rfl
  | b :: l, h => by
    have hlen : 8 * (b :: l).length = 8 + 8 * l.length := by
      rw [List.length_cons]
      omega
    have hval : leNat (b :: l) = 2 ^ 8 * leNat l + b.val := by
      rw [leNat]
      omega
    have hw : 8 + 8 * l.length ≤ w := hlen ▸ h
    have hlow : bits 8 (BitVec.ofNat w (leNat (b :: l))) = octet b := by
      refine List.map_congr_left (fun i hi => ?_)
      have h8 := List.mem_range.1 hi
      rw [u32, getLsbD_ofNat, getLsbD_ofNat, decide_eq_true (show i < w by omega),
        decide_eq_true (show i < 32 by omega), hval, Nat.testBit_two_pow_mul_add _ b.isLt, if_pos h8]
    have hhigh : bits (8 * l.length) (BitVec.ofNat w (leNat (b :: l)) >>> 8) =
        bits (8 * l.length) (BitVec.ofNat w (leNat l)) := by
      refine List.map_congr_left (fun i hi => ?_)
      have hi := List.mem_range.1 hi
      rw [BitVec.getLsbD_ushiftRight, getLsbD_ofNat, getLsbD_ofNat, decide_eq_true (show 8 + i < w by omega),
        decide_eq_true (show i < w by omega), hval, Nat.testBit_two_pow_mul_add _ b.isLt, if_neg (by omega),
        Nat.add_sub_cancel_left]
    rw [hlen, bits_add, hlow, hhigh, bits_leNat l (by omega), octets_cons]

theorem crc32di_feed (c : BitVec 64) (l : List Byte) (h : l.length = 8) :
    (crc32di c (BitVec.ofNat 64 (leNat l))).setWidth 32 = feed castagnoli (c.setWidth 32) (octets l) := by
  have hbits := @bits_leNat 64 l (by omega)
  rw [h] at hbits
  rw [crc32di, BitVec.setWidth_setWidth_of_le _ (by decide), setWidth_eq, instruction_feed, hbits]

theorem toAligned_feed (p : Nat) (c : BitVec 64) (data : List Byte) :
    feed castagnoli ((toAligned p c data).1.setWidth 32) (octets (toAligned p c data).2) =
      feed castagnoli (c.setWidth 32) (octets data) := by
  fun_induction toAligned p c data with
  | case1 p c => rfl
  | case2 p c b data h ih => rw [ih, byteStepHw_feed, octets_cons, feed_append]
  | case3 p c b data h => rfl

theorem wordsHw_feed (c : BitVec 64) (data : List Byte) :
    feed castagnoli ((wordsHw c data).1.setWidth 32) (octets (wordsHw c data).2) =
      feed castagnoli (c.setWidth 32) (octets data) := by
  fun_induction wordsHw c data with
  | case1 c p0 p1 p2 p3 p4 p5 p6 p7 p ih =>
    rw [ih, crc32di_feed _ _ rfl, ← feed_append, ← octets_append]
    rfl
  | case2 c p h => rfl

theorem foldl_byteStepHw (c : BitVec 64) (data : List Byte) :
    (data.foldl byteStepHw c).setWidth 32 = feed castagnoli (c.setWidth 32) (octets data) := by
  induction data generalizing c with
  | nil => rfl
  | cons p data ih => rw [List.foldl_cons, ih, byteStepHw_feed, octets_cons, feed_append]

theorem crcHw_eq (crc : U32) (p : Nat) (data : List Byte) : crcHw crc p data = bitwise crc data := by
  show ~~~((wordsHw _ (toAligned p _ data).2).2.foldl byteStepHw (wordsHw (toAligned p _ data).1 _).1).setWidth 32 = _
  rw [foldl_byteStepHw, wordsHw_feed, toAligned_feed, BitVec.setWidth_setWidth_of_le _ (by decide), setWidth_eq,
    bitwise]

/-! ## Whichever it is -/

theorem does_crc32cExtend (h : Host) (crc : U32) (p : Nat) (data : List Byte) :
    Does (fun _ => True) (crc32cExtend h crc p data) (fun c _ => c = bitwise crc data) := by
  have hmode : Does (fun _ => True) (crcMode h) (fun _ _ => True) := fun _ _ => trivial
  refine Does.ite (fun _ => hmode.bind (fun m => Does.ite (fun _ => ?_) (fun _ => ?_))) (fun _ => ?_)
  · exact Does.pure (fun _ _ => crcHw_eq crc p data)
  · exact does_crc32cExtendPortable crc data
  · exact does_crc32cExtendPortable crc data

/-- **`crc32c_extend` is the definition**, by the tables or by the instruction. -/
theorem crc32cExtend_eq (h : Host) (crc : U32) (p : Nat) (data : List Byte) (s : Statics) :
    (crc32cExtend h crc p data s).1 = bitwise crc data := does_crc32cExtend h crc p data s trivial

theorem bitwise_append (crc : U32) (a b : List Byte) : bitwise (bitwise crc a) b = bitwise crc (a ++ b) := by
  rw [bitwise, bitwise, bitwise, BitVec.not_not, octets_append, feed_append]

theorem does_parts (h h' : Host) (p q : Nat) (a b : List Byte) :
    Does (fun _ => True) (do let c ← crc32c h p a; crc32cExtend h' c q b) (fun c _ => c = bitwise 0#32 (a ++ b)) := by
  refine (does_crc32cExtend h 0#32 p a).bind (fun c => Does.each (fun s hc => ?_))
  rw [← bitwise_append, ← hc]
  exact (does_crc32cExtend h' c q b).pre (fun _ _ => trivial)

/-- **The tables are the definition, and a checksum goes on from a part to the whole**, whichever the calls run and
wherever the bytes are. -/
theorem portable_bitwise_composes :
    (∀ (crc : U32) (data : List Byte) (s : Statics), (crc32cExtendPortable crc data s).1 = bitwise crc data) ∧
    ∀ (h₁ h₂ h₃ : Host) (p q r : Nat) (a b : List Byte) (s t : Statics),
      ((do let c ← crc32c h₁ p a; crc32cExtend h₂ c q b) s).1 = (crc32c h₃ r (a ++ b) t).1 := by
  constructor
  · exact fun crc data s => does_crc32cExtendPortable crc data s trivial
  · intro h₁ h₂ h₃ p q r a b s t
    have hparts := does_parts h₁ h₂ p q a b s trivial
    have hwhole := does_crc32cExtend h₃ 0#32 r (a ++ b) t trivial
    exact hparts.trans hwhole.symm

/-- The check value of `crc_agreement`. -/
example : bitwise 0#32 (text "123456789") = 0xE3069283#32 := by decide +kernel

/-! ## The checksum in the store's files -/

theorem crcTable_eq (c : U32) : Raw.crcTable c.toNat = (advance castagnoli 8 c).toNat := by
  have hstep : ∀ c : U32, c.toNat / 2 ^^^ (if c.toNat % 2 = 1 then 0x82F63B78 else 0) = (shift castagnoli c).toNat := by
    intro c
    rw [shift, toNat_xor, toNat_ushiftRight, Nat.shiftRight_eq_div_pow, pow_one, BitVec.getLsbD,
      Nat.testBit_zero]
    by_cases h : c.toNat % 2 = 1
    · simp [h, castagnoli]
    · simp [h]
  have hrun : ∀ (l : List Nat) (c : U32),
      l.foldl (fun c _ => c / 2 ^^^ (if c % 2 = 1 then 0x82F63B78 else 0)) c.toNat =
        (advance castagnoli l.length c).toNat := by
    intro l
    induction l with
    | nil => exact fun _ => rfl
    | cons x l ih =>
      intro c
      rw [List.foldl_cons, hstep, ih]
      rfl
  rw [Raw.crcTable, hrun, List.length_range]

/-- **The checksum that the files are written and read with.** -/
theorem crc32c_eq (l : List Byte) : Raw.crc32c l = (bitwise 0#32 l).toNat := by
  have hstep : ∀ (c : U32) (b : Byte), c.toNat / 256 ^^^ Raw.crcTable ((c.toNat ^^^ b.val) % 256) =
      (feed castagnoli c (octet b)).toNat := by
    intro c b
    have hindex : (u32 (index ((c ^^^ u32 b) &&& 0xFF#32))).toNat = (c.toNat ^^^ b.val) % 256 := by
      rw [u32_index (low_lt _), BitVec.toNat_and, toNat_xor, u32_toNat]
      exact Nat.and_two_pow_sub_one_eq_mod _ 8
    rw [feed_octet, toNat_xor, toNat_ushiftRight, Nat.shiftRight_eq_div_pow, ← hindex, crcTable_eq]
  have hrun : ∀ (l : List Byte) (c : U32),
      l.foldl (fun c b => c / 256 ^^^ Raw.crcTable ((c ^^^ b.val) % 256)) c.toNat =
      (feed castagnoli c (octets l)).toNat := by
    intro l
    induction l with
    | nil => exact fun _ => rfl
    | cons b l ih =>
      intro c
      rw [List.foldl_cons, hstep, ih, octets_cons, feed_append]
  rw [Raw.crc32c, bitwise, BitVec.not_def, toNat_xor, ← hrun l]
  rfl

/-! ## Damage -/

/-- **Four bytes in a row that have changed show**, whatever is before and after them. -/
theorem bitwise_burst (crc : U32) (a b : List Byte) {l m : List Byte} (hl : l.length ≤ 4) (hm : m.length = l.length)
    (h : bitwise crc (a ++ l ++ b) = bitwise crc (a ++ m ++ b)) : l = m := by
  have htop : castagnoli.getLsbD (32 - 1) = true := by decide
  have hfed := BitVec.not_inj.1 h
  simp only [octets_append] at hfed
  refine octets_injective (feed_burst htop _ _ _ ?_ ?_ hfed)
  · rw [length_octets]
    omega
  · rw [length_octets, length_octets, hm]

theorem checkBlock_sum {b : Raw.Buffer} {c y : List Byte} (hb : b.bytes = c ++ y) (hy : 4 ≤ y.length)
    (h : Raw.checkBlock b = .ok ()) : Raw.crc32c (c ++ y.take (y.length - 4)) = leNat (y.drop (y.length - 4)) := by
  have hsize : b.size - 4 = c.length + (y.length - 4) := by
    rw [Raw.Buffer.size, hb, List.length_append]
    omega
  have htake : b.bytes.take (b.size - 4) = c ++ y.take (y.length - 4) := by
    rw [hsize, hb, List.take_length_add_append]
  have hget : b.get (b.size - 4) 4 = leNat (y.drop (y.length - 4)) := by
    show leNat ((b.bytes.drop (b.size - 4)).take 4) = _
    rw [hsize, hb, List.drop_length_add_append, List.take_of_length_le (by rw [List.length_drop]; omega)]
  unfold Raw.checkBlock at h
  split at h
  · cases h
  · split at h
    · rename_i hsum
      rw [← htake, ← hsum, hget]
    · cases h

/-- **A block that passes its check is refused once four bytes in a row, or fewer, have changed** before the checksum,
wherever they are and whatever they become. -/
theorem damaged_block_refused {b b' : Raw.Buffer} {x l m y : List Byte} (hb : b.bytes = x ++ l ++ y)
    (hb' : b'.bytes = x ++ m ++ y) (hl : l.length ≤ 4) (hm : m.length = l.length) (hy : 4 ≤ y.length)
    (h : Raw.checkBlock b = .ok ()) (hne : l ≠ m) : Raw.checkBlock b' = Raw.corrupt := by
  have hfail : ¬ Raw.checkBlock b' = .ok () := by
    intro h'
    have hsum : Raw.crc32c (x ++ l ++ y.take (y.length - 4)) = Raw.crc32c (x ++ m ++ y.take (y.length - 4)) := by
      rw [checkBlock_sum hb hy h, checkBlock_sum hb' hy h']
    rw [crc32c_eq, crc32c_eq] at hsum
    exact hne (bitwise_burst 0#32 _ _ hl hm (BitVec.eq_of_toNat_eq hsum))
  rw [Raw.checkBlock] at hfail ⊢
  split
  · rfl
  · rename_i hsize
    rw [if_neg hsize] at hfail
    exact if_neg (fun hsum => hfail (if_pos hsum))

/-- A byte of a block of zeros that is written as it should be. -/
theorem damaged_block_refused_zeros :
    Raw.checkBlock ⟨byte 1 :: (List.replicate 31 (byte 0) ++ lePut 4 (Raw.crc32c (List.replicate 32 (byte 0)))),
      by decide⟩ =
      Raw.corrupt :=
  damaged_block_refused (b := ⟨List.replicate 32 (byte 0) ++ lePut 4 (Raw.crc32c (List.replicate 32 (byte 0))),
  by decide⟩)
    (x := []) (l := [byte 0]) (m := [byte 1]) rfl rfl (by decide) rfl (by decide) (by decide +kernel) (by decide)

end Crc
end Gbasic
