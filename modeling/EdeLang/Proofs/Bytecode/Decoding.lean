import EdeLang.Proofs.Bytecode.Codec

/-!
# Decoded bytes are encodings

The decoder accepts no bytes but those of the instruction that it returns. A program is therefore
listed exactly if it is the bytes of some instructions, which it determines, and otherwise the
listing fails where decoding fails behind the longest run of instructions.
-/

namespace EdeLang

theorem littleEndian_ofLittleEndian (bs : List UInt8) :
    littleEndian bs.length (ofLittleEndian bs) = bs := by
  induction bs with
  | nil => rfl
  | cons b bs ih =>
    have hb : b.toNat < 256 := b.toNat_lt
    have hlow : (b.toNat + 256 * ofLittleEndian bs) % 256 = b.toNat := by omega
    have hhigh : (b.toNat + 256 * ofLittleEndian bs) / 256 = ofLittleEndian bs := by omega
    rw [List.length_cons, ofLittleEndian, littleEndian, hlow, hhigh, ih, UInt8.ofNat_toNat]

private theorem ofLittleEndian_lt (bs : List UInt8) : ofLittleEndian bs < 256 ^ bs.length := by
  induction bs with
  | nil => exact Nat.one_pos
  | cons b bs ih =>
    have hb : b.toNat < 256 := b.toNat_lt
    rw [ofLittleEndian, List.length_cons, Nat.pow_succ]
    omega

theorem Word.bytes_ofNat_ofLittleEndian {bs : List UInt8} (h : bs.length = Word.size) :
    (Word.ofNat (ofLittleEndian bs)).bytes = bs := by
  have hlt : ofLittleEndian bs < 2 ^ 64 := by
    have hbound := ofLittleEndian_lt bs
    rw [h] at hbound
    exact hbound
  have hbits : (UInt64.ofNat (ofLittleEndian bs)).toNat = ofLittleEndian bs :=
    UInt64.toNat_ofNat_of_lt hlt
  rw [Word.bytes, Word.ofNat, hbits, ← h, littleEndian_ofLittleEndian]

private theorem Syscall.byte_of_ofByte? {b : UInt8} {code : Syscall}
    (h : Syscall.ofByte? b = some code) : code.byte = b := by
  obtain ⟨hlt, hcode⟩ := List.getElem?_eq_some_iff.mp h
  have hb : b = UInt8.ofNat b.toNat := UInt8.ofNat_toNat.symm
  rw [hb]
  generalize b.toNat = k at hlt hcode
  have hk : k < 5 := hlt
  have hall : k = 0 ∨ k = 1 ∨ k = 2 ∨ k = 3 ∨ k = 4 := by omega
  rcases hall with rfl | rfl | rfl | rfl | rfl <;> (subst hcode; rfl)

private theorem Opcode.byte_of_ofByte? {b : UInt8} {op : Opcode} (h : Opcode.ofByte? b = some op) :
    op.byte = b := by
  unfold Opcode.ofByte? at h
  split at h <;> cases h <;> rfl

def Arg.sizeAll (args : List Arg) : Nat := (args.map Arg.size).sum

namespace Field

theorem bytes_of_read {arg : Arg} {bytes : List UInt8} {field : Field}
    (hlen : bytes.length = arg.size) (h : read arg bytes = .ok field) : field.bytes = bytes := by
  by_cases harg : arg = .syscall
  · subst harg
    obtain ⟨b, rfl⟩ := List.length_eq_one_iff.mp hlen
    simp only [read] at h
    split at h
    · next code hcode =>
      cases h
      rw [Field.bytes, Syscall.byte_of_ofByte? hcode]
    · cases h
  · have hword : Except.ok (.word (Word.ofNat (ofLittleEndian bytes))) =
        (.ok field : Except DecodeError Field) := by
      cases arg with
      | syscall => exact absurd rfl harg
      | _ => exact h
    cases hword
    apply Word.bytes_ofNat_ofLittleEndian
    cases arg with
    | syscall => exact absurd rfl harg
    | _ => exact hlen

private theorem foldr_size (args : List Arg) :
    args.foldr (fun arg size => arg.size + size) 1 = Arg.sizeAll args + 1 := by
  induction args with
  | nil => rfl
  | cons arg args ih => simp [Arg.sizeAll, ih, Nat.add_assoc]

theorem flatMap_bytes_of_readAll {args : List Arg} {bytes : List UInt8} {fields : List Field}
    (hlen : Arg.sizeAll args ≤ bytes.length) (h : readAll args bytes = .ok fields) :
    fields.flatMap Field.bytes = bytes.take (Arg.sizeAll args) := by
  induction args generalizing bytes fields with
  | nil => cases h; rfl
  | cons arg args ih =>
    have hsize : Arg.sizeAll (arg :: args) = arg.size + Arg.sizeAll args := by simp [Arg.sizeAll]
    rw [hsize] at hlen ⊢
    have hfirst : (bytes.take arg.size).length = arg.size := by
      rw [List.length_take]; omega
    have hroom : Arg.sizeAll args ≤ (bytes.drop arg.size).length := by
      rw [List.length_drop]; omega
    rw [readAll] at h
    cases hread : read arg (bytes.take arg.size) with
    | error e => rw [hread] at h; cases h
    | ok field =>
      cases hrest : readAll args (bytes.drop arg.size) with
      | error e => rw [hread, hrest] at h; cases h
      | ok rest =>
        rw [hread, hrest] at h
        cases h
        rw [List.flatMap_cons, bytes_of_read hfirst hread, ih hroom hrest, List.take_add]

/-- Only the bytes of the operands are looked at. -/
theorem readAll_take {args : List Arg} {n : Nat} (hn : Arg.sizeAll args ≤ n) (bytes : List UInt8) :
    readAll args (bytes.take n) = readAll args bytes := by
  induction args generalizing n bytes with
  | nil => rfl
  | cons arg args ih =>
    have hsize : Arg.sizeAll (arg :: args) = arg.size + Arg.sizeAll args := by simp [Arg.sizeAll]
    rw [hsize] at hn
    rw [readAll, readAll, List.take_take, Nat.min_eq_left (by omega), List.drop_take,
      ih (by omega)]

end Field

theorem Opcode.size_eq (op : Opcode) : op.size = Arg.sizeAll op.args + 1 :=
  Field.foldr_size op.args

namespace Instruction

theorem ofFields?_eq_some {op : Opcode} {fields : List Field} {i : Instruction}
    (h : ofFields? op fields = some i) : i.op = op ∧ i.fields = fields := by
  unfold ofFields? at h
  split at h <;> cases h <;> exact ⟨rfl, rfl⟩

/-- Bytes are decoded exactly if they start with an encoding. -/
theorem decodeHead_eq_ok_iff {offset : Nat} {bytes : List UInt8} {i : Instruction} :
    decodeHead offset bytes = .ok i ↔ i.encode <+: bytes := by
  constructor
  · intro h
    unfold decodeHead at h
    split at h
    · cases h
    · next tag body =>
      split at h
      · cases h
      · next op hop =>
        split_ifs at h with hplace hshort
        have hroom : Arg.sizeAll op.args ≤ body.length := by
          rw [op.size_eq] at hshort
          omega
        split at h
        · cases h
        · next fields hread =>
          split at h
          · next j hj =>
            cases h
            obtain ⟨rfl, rfl⟩ := ofFields?_eq_some hj
            rw [encode, Opcode.byte_of_ofByte? hop, Field.flatMap_bytes_of_readAll hroom hread]
            exact (List.prefix_cons_inj tag).mpr (List.take_prefix _ _)
          · cases h
  · rintro ⟨post, rfl⟩
    exact decodeHead_encode i offset post

theorem decodeHead_take (offset : Nat) (bytes : List UInt8) :
    decodeHead offset (bytes.take maxSize) = decodeHead offset bytes := by
  cases bytes with
  | nil => rfl
  | cons tag body =>
    rw [maxSize, List.take_succ_cons, decodeHead, decodeHead]
    cases Opcode.ofByte? tag with
    | none => rfl
    | some op =>
      have hmax : op.size ≤ 17 := by cases op <;> decide
      have hshort : (body.take 16).length < op.size - 1 ↔ body.length < op.size - 1 := by
        rw [List.length_take]; omega
      have hread : Field.readAll op.args (body.take 16) = Field.readAll op.args body := by
        apply Field.readAll_take
        rw [op.size_eq] at hmax
        omega
      simp only [hshort, hread]

theorem decode_eq_decodeHead (program : Array UInt8) (offset : Nat) :
    decode program offset = decodeHead offset (program.toList.drop offset) := by
  have hwindow : (program.extract offset (offset + maxSize)).toList =
      (program.toList.drop offset).take maxSize := by
    simp
  rw [decode, hwindow, decodeHead_take]

/-- An instruction is fetched exactly where its bytes stand. -/
theorem decode_eq_ok_iff {program : Array UInt8} {offset : Nat} {i : Instruction} :
    decode program offset = .ok i ↔
      (program.extract offset (offset + i.size)).toList = i.encode := by
  have hbytes : (program.extract offset (offset + i.size)).toList =
      (program.toList.drop offset).take i.encode.length := by
    simp [encode_length]
  rw [decode_eq_decodeHead, decodeHead_eq_ok_iff, List.prefix_iff_eq_take, hbytes]
  exact eq_comm

theorem getElem?_listing (offset k : Nat) (is : List Instruction) :
    (listing offset is)[k]? = is[k]?.map fun i => (offset + sizeAll (is.take k), i) := by
  induction is generalizing offset k with
  | nil => simp [listing]
  | cons i is ih =>
    cases k with
    | zero => simp [listing]
    | succ k => simp [listing, ih, Nat.add_assoc]

theorem map_snd_listing (offset : Nat) (is : List Instruction) :
    (listing offset is).map Prod.snd = is := by
  induction is generalizing offset with
  | nil => rfl
  | cons i is ih => simp [listing, ih]

private theorem decodeStream_cons (fuel offset : Nat) {bytes : List UInt8} (h : bytes ≠ []) :
    decodeStream (fuel + 1) offset bytes = (do
      let i ← decodeHead offset bytes
      let rest ← decodeStream fuel (offset + i.size) (bytes.drop i.size)
      return (offset, i) :: rest) := by
  cases bytes with
  | nil => exact absurd rfl h
  | cons b bytes => rfl

private theorem decodeStream_eq_ok {fuel offset : Nat} {bytes : List UInt8}
    {l : List (Nat × Instruction)} (h : decodeStream fuel offset bytes = .ok l) :
    ∃ is, bytes = is.flatMap encode ∧ l = listing offset is := by
  induction fuel generalizing offset bytes l with
  | zero =>
    cases bytes with
    | nil => cases h; exact ⟨[], rfl, rfl⟩
    | cons b bytes => cases h
  | succ fuel ih =>
    by_cases hnil : bytes = []
    · subst hnil
      cases h
      exact ⟨[], rfl, rfl⟩
    · rw [decodeStream_cons fuel offset hnil] at h
      cases hhead : decodeHead offset bytes with
      | error e => rw [hhead] at h; cases h
      | ok i =>
        obtain ⟨post, rfl⟩ := decodeHead_eq_ok_iff.mp hhead
        have hdrop : (i.encode ++ post).drop i.size = post := by
          rw [← encode_length, List.drop_left]
        rw [hhead] at h
        simp only [bind, Except.bind, hdrop] at h
        cases hrest : decodeStream fuel (offset + i.size) post with
        | error e => rw [hrest] at h; cases h
        | ok rest =>
          rw [hrest] at h
          cases h
          obtain ⟨is, rfl, rfl⟩ := ih hrest
          exact ⟨i :: is, rfl, rfl⟩

/-- A program is listed exactly if it is the bytes of instructions. -/
theorem decodeAll_eq_ok_iff {program : Array UInt8} {l : List (Nat × Instruction)} :
    decodeAll program = .ok l ↔ ∃ is, program = encodeAll is ∧ l = listing 0 is := by
  constructor
  · intro h
    obtain ⟨is, hbytes, hl⟩ := decodeStream_eq_ok h
    exact ⟨is, by rw [encodeAll, ← hbytes], hl⟩
  · rintro ⟨is, rfl, rfl⟩
    exact decodeAll_encodeAll is

theorem encodeAll_injective : Function.Injective encodeAll := by
  intro is js h
  have hlist := decodeAll_encodeAll is
  rw [h, decodeAll_encodeAll js] at hlist
  have hmap := congrArg (List.map Prod.snd) (Except.ok.inj hlist)
  rw [map_snd_listing, map_snd_listing] at hmap
  exact hmap.symm

private theorem decodeStream_eq_error {is : List Instruction} {post : List UInt8}
    {fuel offset : Nat} {e : DecodeError} (hfuel : sizeAll is < fuel) (hpost : post ≠ [])
    (h : decodeHead (offset + sizeAll is) post = .error e) :
    decodeStream fuel offset (is.flatMap encode ++ post) = .error e := by
  induction is generalizing fuel offset with
  | nil =>
    obtain ⟨fuel, rfl⟩ := Nat.exists_eq_succ_of_ne_zero (Nat.ne_of_gt hfuel)
    rw [List.flatMap_nil, List.nil_append, decodeStream_cons fuel offset hpost]
    rw [sizeAll_nil, Nat.add_zero] at h
    rw [h]
    rfl
  | cons i is ih =>
    rw [sizeAll_cons] at hfuel h
    obtain ⟨fuel, rfl⟩ := Nat.exists_eq_succ_of_ne_zero (Nat.ne_of_gt (Nat.zero_lt_of_lt hfuel))
    have hpos := i.size_pos
    have hdrop : (i.encode ++ (is.flatMap encode ++ post)).drop i.size =
        is.flatMap encode ++ post := by
      rw [← encode_length, List.drop_left]
    have hrest : decodeStream fuel (offset + i.size) (is.flatMap encode ++ post) = .error e := by
      apply ih (by omega)
      rw [Nat.add_assoc]
      exact h
    rw [List.flatMap_cons, List.append_assoc,
      decodeStream_cons fuel offset (by simp [encode_ne_nil]), decodeHead_encode]
    simp only [bind, Except.bind, hdrop, hrest]

private theorem exists_reading (offset : Nat) (bytes : List UInt8) :
    (∃ is : List Instruction, bytes = is.flatMap encode) ∨
      ∃ (is : List Instruction) (post : List UInt8) (e : DecodeError),
        bytes = is.flatMap encode ++ post ∧ post ≠ [] ∧
        decodeHead (offset + sizeAll is) post = .error e := by
  induction hn : bytes.length using Nat.strong_induction_on generalizing offset bytes with
  | _ n ih =>
    by_cases hnil : bytes = []
    · exact .inl ⟨[], hnil⟩
    · cases hhead : decodeHead offset bytes with
      | error e => exact .inr ⟨[], bytes, e, rfl, hnil, hhead⟩
      | ok i =>
        obtain ⟨post, rfl⟩ := decodeHead_eq_ok_iff.mp hhead
        have hpos := i.size_pos
        rw [List.length_append, encode_length] at hn
        rcases ih post.length (by omega) (offset + i.size) post rfl with hall | hsome
        · obtain ⟨is, rfl⟩ := hall
          exact .inl ⟨i :: is, rfl⟩
        · obtain ⟨is, rest, e, rfl, hrest, herror⟩ := hsome
          refine .inr ⟨i :: is, rest, e, by simp, hrest, ?_⟩
          rw [sizeAll_cons, ← Nat.add_assoc]
          exact herror

/-- A program is refused exactly for what stands behind instructions at its start and is none. -/
theorem decodeAll_eq_error_iff {program : Array UInt8} {e : DecodeError} :
    decodeAll program = .error e ↔
      ∃ is, is.flatMap encode <+: program.toList ∧ sizeAll is < program.size ∧
        decode program (sizeAll is) = .error e := by
  have hrefused : ∀ (is : List Instruction) (post : List UInt8) (e : DecodeError),
      program.toList = is.flatMap encode ++ post → post ≠ [] →
      decodeHead (0 + sizeAll is) post = .error e → decodeAll program = .error e := by
    intro is post e hbytes hpost herror
    have hsize : program.size = sizeAll is + post.length := by
      rw [← Array.length_toList, hbytes, List.length_append, flatMap_encode_length]
    have hlen := List.length_pos_of_ne_nil hpost
    rw [decodeAll, hbytes]
    exact decodeStream_eq_error (by omega) hpost herror
  constructor
  · intro h
    rcases exists_reading 0 program.toList with hall | hsome
    · obtain ⟨is, his⟩ := hall
      have hlist := decodeAll_encodeAll is
      rw [encodeAll, ← his, h] at hlist
      cases hlist
    · obtain ⟨is, post, e', hbytes, hpost, herror⟩ := hsome
      have hsame := hrefused is post e' hbytes hpost herror
      rw [h] at hsame
      cases hsame
      have hlen := List.length_pos_of_ne_nil hpost
      refine ⟨is, ⟨post, hbytes.symm⟩, ?_, ?_⟩
      · rw [← Array.length_toList, hbytes, List.length_append, flatMap_encode_length]
        omega
      · have hdrop : program.toList.drop (sizeAll is) = post := by
          rw [hbytes, ← flatMap_encode_length, List.drop_left]
        rw [decode_eq_decodeHead, hdrop]
        rwa [Nat.zero_add] at herror
  · rintro ⟨is, ⟨post, hbytes⟩, hlt, herror⟩
    have hdrop : program.toList.drop (sizeAll is) = post := by
      rw [← hbytes, ← flatMap_encode_length, List.drop_left]
    have hpost : post ≠ [] := by
      intro hnil
      rw [← Array.length_toList, ← hbytes, hnil, List.append_nil, flatMap_encode_length] at hlt
      exact absurd hlt (Nat.lt_irrefl _)
    apply hrefused is post e hbytes.symm hpost
    rwa [decode_eq_decodeHead, hdrop, ← Nat.zero_add (sizeAll is)] at herror

private theorem eq_listing_iff (l : List (Nat × Instruction)) :
    l = listing 0 (l.map Prod.snd) ↔
      ∀ k e, l[k]? = some e → e.1 = sizeAll ((l.take k).map Prod.snd) := by
  constructor
  · intro h k e he
    have hentry := congrArg (·[k]?) h
    simp only [getElem?_listing, List.getElem?_map, he, Option.map_some, Option.some.injEq,
      Nat.zero_add] at hentry
    rw [List.map_take]
    exact congrArg Prod.fst hentry
  · intro h
    apply List.ext_getElem?
    intro k
    rw [getElem?_listing, List.getElem?_map]
    cases he : l[k]? with
    | none => rfl
    | some e => simp [← List.map_take, ← h k e he]

/-- The codec is a bijection on its image. An instruction is read back wherever its bytes stand,
and is read nowhere else. A program is listed exactly if it is the bytes of the listed
instructions and their offsets are the running sums of their sizes, and refused exactly where
decoding fails behind some instructions; no program has two readings. -/
theorem codec_bijective :
    (∀ (i : Instruction) (pre post : List UInt8), i.encode.length = i.size ∧
      decode (pre ++ i.encode ++ post).toArray pre.length = .ok i) ∧
    (∀ (program : Array UInt8) (offset : Nat) (i : Instruction),
      decode program offset = .ok i ↔
        (program.extract offset (offset + i.size)).toList = i.encode) ∧
    (∀ (program : Array UInt8) (l : List (Nat × Instruction)),
      decodeAll program = .ok l ↔
        program.toList = l.flatMap (fun e => e.2.encode) ∧
        ∀ k e, l[k]? = some e → e.1 = ((l.take k).map fun e => e.2.size).sum) ∧
    (∀ (program : Array UInt8) (e : DecodeError),
      decodeAll program = .error e ↔
        ∃ is, is.flatMap encode <+: program.toList ∧ sizeAll is < program.size ∧
          decode program (sizeAll is) = .error e) ∧
    Function.Injective encodeAll := by
  refine ⟨fun i pre post => ⟨encode_length i, decode_encode i pre post⟩,
    fun _ _ _ => decode_eq_ok_iff, fun program l => ?_, fun _ _ => decodeAll_eq_error_iff,
    encodeAll_injective⟩
  have hsum : ∀ k, ((l.take k).map fun e => e.2.size).sum = sizeAll ((l.take k).map Prod.snd) := by
    intro k
    rw [sizeAll, List.map_map]
    rfl
  have hbytes : l.flatMap (fun e => e.2.encode) = (l.map Prod.snd).flatMap encode := by
    rw [List.flatMap_map]
  simp only [hsum, hbytes, ← eq_listing_iff]
  rw [decodeAll_eq_ok_iff]
  constructor
  · rintro ⟨is, rfl, rfl⟩
    rw [map_snd_listing]
    exact ⟨rfl, rfl⟩
  · intro h
    exact ⟨l.map Prod.snd, by rw [encodeAll, ← h.1], h.2⟩

end Instruction
end EdeLang
