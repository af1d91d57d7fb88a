import EdeLang.Assembly.Assemble
import Mathlib.Algebra.BigOperators.Fin

/-!
# Encoded instructions read back

The bytes of an instruction decode to it wherever they stand in a program. The listing of a
sequence of instructions gives each the sum of the sizes before it, and decoding the bytes of the
sequence yields exactly that listing.
-/

namespace EdeLang

@[simp]
theorem littleEndian_length (n v : Nat) : (littleEndian n v).length = n := by
  induction n generalizing v with
  | zero => rfl
  | succ n ih => simp [littleEndian, ih]

theorem ofLittleEndian_littleEndian (n v : Nat) :
    ofLittleEndian (littleEndian n v) = v % 256 ^ n := by
  induction n generalizing v with
  | zero => simp [littleEndian, ofLittleEndian, Nat.mod_one]
  | succ n ih =>
    have hlow : (UInt8.ofNat (v % 256)).toNat = v % 256 := by
      simp
    rw [littleEndian, ofLittleEndian, ih, hlow, Nat.pow_succ, Nat.mul_comm (256 ^ n),
      Nat.mod_mul]

namespace Word

@[simp]
theorem bytes_length (w : Word) : w.bytes.length = size := littleEndian_length _ _

theorem ofNat_ofLittleEndian_bytes (w : Word) : ofNat (ofLittleEndian w.bytes) = w := by
  have hlt : w.bits.toNat < 256 ^ 8 := w.bits.toNat_lt
  simp only [bytes, size, ofLittleEndian_littleEndian, ofNat, Nat.mod_eq_of_lt hlt]
  rw [UInt64.ofNat_toNat]

end Word

namespace Field

/-- The field can stand where an operand of the kind is asked for. -/
def Matches : Field → Arg → Prop
  | .syscall _, .syscall => True
  | .syscall _, _ => False
  | .word _, .syscall => False
  | .word _, _ => True

theorem bytes_length_of_matches {field : Field} {arg : Arg} (h : field.Matches arg) :
    field.bytes.length = arg.size := by
  cases field <;> cases arg <;> simp_all [Matches, bytes, Arg.size]

private theorem ofByte?_byte (code : Syscall) : Syscall.ofByte? code.byte = some code := by
  cases code <;> rfl

theorem read_bytes {field : Field} {arg : Arg} (h : field.Matches arg) :
    read arg field.bytes = .ok field := by
  cases field with
  | word value =>
    cases arg <;> simp_all [Matches, bytes, read, Word.ofNat_ofLittleEndian_bytes]
  | syscall code =>
    cases arg <;> simp_all [Matches, bytes, read, ofByte?_byte]

theorem readAll_bytes {fields : List Field} {args : List Arg} (post : List UInt8)
    (h : List.Forall₂ Matches fields args) :
    readAll args (fields.flatMap bytes ++ post) = .ok fields := by
  induction h with
  | nil => rfl
  | @cons field arg fields args hfield _ ih =>
    have hlen := bytes_length_of_matches hfield
    have htake : (field.bytes ++ (fields.flatMap bytes ++ post)).take arg.size = field.bytes := by
      rw [← hlen]; simp
    have hdrop : (field.bytes ++ (fields.flatMap bytes ++ post)).drop arg.size =
        fields.flatMap bytes ++ post := by
      rw [← hlen]; simp
    rw [List.flatMap_cons, List.append_assoc, readAll, htake, hdrop, read_bytes hfield, ih]
    rfl

theorem flatMap_bytes_length {fields : List Field} {args : List Arg}
    (h : List.Forall₂ Matches fields args) :
    (fields.flatMap bytes).length + 1 = args.foldr (fun arg size => arg.size + size) 1 := by
  induction h with
  | nil => rfl
  | cons hfield _ ih => simp [bytes_length_of_matches hfield, ← ih, Nat.add_assoc]

end Field

namespace Instruction

theorem fields_match (i : Instruction) : List.Forall₂ Field.Matches i.fields i.op.args := by
  cases i <;> simp [fields, op, Opcode.args, Field.Matches]

private theorem ofByte?_opcode (i : Instruction) : Opcode.ofByte? i.op.byte = some i.op := by
  cases i <;> rfl

private theorem op_not_placeholder (i : Instruction) : i.op.isPlaceholder = false := by
  cases i <;> rfl

theorem ofFields?_fields (i : Instruction) : ofFields? i.op i.fields = some i := by
  cases i <;> rfl

theorem encode_length (i : Instruction) : i.encode.length = i.size := by
  rw [encode, List.length_cons, Field.flatMap_bytes_length i.fields_match, size, Opcode.size]

theorem size_pos (i : Instruction) : 0 < i.size := by
  rw [← encode_length, encode]
  exact Nat.succ_pos _

private theorem opcode_size_le (op : Opcode) : op.size ≤ maxSize := by
  cases op <;> decide

theorem size_le_maxSize (i : Instruction) : i.size ≤ maxSize := opcode_size_le i.op

theorem encode_ne_nil (i : Instruction) : i.encode ≠ [] := by
  simp [encode]

/-- An instruction is read back from the front of any bytes. -/
theorem decodeHead_encode (i : Instruction) (offset : Nat) (post : List UInt8) :
    decodeHead offset (i.encode ++ post) = .ok i := by
  have hroom : ¬ (i.fields.flatMap Field.bytes ++ post).length < i.op.size - 1 := by
    rw [List.length_append, Opcode.size, ← Field.flatMap_bytes_length i.fields_match]
    omega
  simp only [encode, List.cons_append, decodeHead, ofByte?_opcode, op_not_placeholder, if_neg hroom,
    Field.readAll_bytes post i.fields_match, ofFields?_fields, Bool.false_eq_true, if_false]

theorem decode_encode (i : Instruction) (pre post : List UInt8) :
    decode (pre ++ i.encode ++ post).toArray pre.length = .ok i := by
  have hwindow : ((pre ++ i.encode ++ post).toArray.extract pre.length
      (pre.length + maxSize)).toList = i.encode ++ post.take (maxSize - i.size) := by
    have hlen : i.encode.length ≤ maxSize := by rw [encode_length]; exact i.size_le_maxSize
    simp [List.take_append, List.take_of_length_le hlen, encode_length]
  rw [decode, hwindow, decodeHead_encode]

/-- Instructions with their offsets, the first of which is given. -/
def listing (offset : Nat) : List Instruction → List (Nat × Instruction)
  | [] => []
  | i :: is => (offset, i) :: listing (offset + i.size) is

def sizeAll (is : List Instruction) : Nat := (is.map size).sum

@[simp]
theorem sizeAll_nil : sizeAll [] = 0 := rfl

@[simp]
theorem sizeAll_cons (i : Instruction) (is : List Instruction) :
    sizeAll (i :: is) = i.size + sizeAll is := rfl

@[simp]
theorem sizeAll_append (is js : List Instruction) :
    sizeAll (is ++ js) = sizeAll is + sizeAll js := by
  simp [sizeAll]

theorem flatMap_encode_length (is : List Instruction) :
    (is.flatMap encode).length = sizeAll is := by
  induction is with
  | nil => rfl
  | cons i is ih => simp [encode_length, ih]

theorem encodeAll_size (is : List Instruction) : (encodeAll is).size = sizeAll is := by
  simpa [encodeAll] using flatMap_encode_length is

theorem listing_append (offset : Nat) (is js : List Instruction) :
    listing offset (is ++ js) = listing offset is ++ listing (offset + sizeAll is) js := by
  induction is generalizing offset with
  | nil => rfl
  | cons i is ih => simp [listing, ih, Nat.add_assoc]

theorem mem_listing {offset at' : Nat} {i : Instruction} {is : List Instruction}
    (h : (at', i) ∈ listing offset is) :
    ∃ before after, is = before ++ i :: after ∧ at' = offset + sizeAll before := by
  induction is generalizing offset with
  | nil => simp [listing] at h
  | cons j is ih =>
    rcases List.mem_cons.mp h with heq | htail
    · obtain ⟨rfl, rfl⟩ := Prod.mk.inj heq
      exact ⟨[], is, rfl, rfl⟩
    · obtain ⟨before, after, rfl, rfl⟩ := ih htail
      exact ⟨j :: before, after, rfl, by simp [Nat.add_assoc]⟩

private theorem decodeStream_encode (is : List Instruction) (fuel offset : Nat)
    (hfuel : sizeAll is ≤ fuel) :
    decodeStream fuel offset (is.flatMap encode) = .ok (listing offset is) := by
  induction is generalizing fuel offset with
  | nil => simp [decodeStream, listing]
  | cons i is ih =>
    have hpos := i.size_pos
    rw [sizeAll_cons] at hfuel
    cases fuel with
    | zero => omega
    | succ fuel =>
      have hhead := decodeHead_encode i offset (is.flatMap encode)
      have hdrop : (i.encode ++ is.flatMap encode).drop i.size = is.flatMap encode := by
        rw [← encode_length]; simp
      have hrest := ih fuel (offset + i.size) (by omega)
      rw [List.flatMap_cons]
      cases hbytes : i.encode ++ is.flatMap encode with
      | nil => simp [encode_ne_nil] at hbytes
      | cons b bytes =>
        rw [hbytes] at hhead hdrop
        simp [decodeStream, hhead, hdrop, hrest, listing, bind, Except.bind, pure, Except.pure]

/-- Decoding the bytes of instructions gives the instructions with their offsets. -/
theorem decodeAll_encodeAll (is : List Instruction) :
    decodeAll (encodeAll is) = .ok (listing 0 is) := by
  have hsize := encodeAll_size is
  rw [decodeAll, hsize]
  exact decodeStream_encode is (sizeAll is) 0 (Nat.le_refl _)

theorem decode_of_mem_listing {is : List Instruction} {offset : Nat} {i : Instruction}
    (h : (offset, i) ∈ listing 0 is) : decode (encodeAll is) offset = .ok i := by
  obtain ⟨before, after, rfl, rfl⟩ := mem_listing h
  have hdecode := decode_encode i (before.flatMap encode) (after.flatMap encode)
  rw [flatMap_encode_length] at hdecode
  simpa [encodeAll] using hdecode

theorem mem_listing_lt {is : List Instruction} {offset : Nat} {i : Instruction}
    (h : (offset, i) ∈ listing 0 is) : offset + i.size ≤ sizeAll is := by
  obtain ⟨before, after, rfl, rfl⟩ := mem_listing h
  simp only [sizeAll_append, sizeAll_cons]
  omega

end Instruction
end EdeLang
