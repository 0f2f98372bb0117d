/-!
# Characters out of bytes

A text is kept as bytes, and the usual way to its characters looks for each of them by
its position. Here they are read off by recursion over the bytes, which can be computed
in proofs as well.
-/
namespace Workboard.Text

/-- The characters of bytes, where the first byte of each tells how many belong to it. -/
def decode : List UInt8 → List Char
  | [] => []
  | a :: bs =>
    if a.toNat < 0x80 then .ofNat a.toNat :: decode bs
    else match bs with
      | [] => []
      | b :: bs =>
        if a.toNat < 0xE0 then .ofNat (a.toNat % 32 * 64 + b.toNat % 64) :: decode bs
        else match bs with
          | [] => []
          | c :: bs =>
            if a.toNat < 0xF0 then
              .ofNat (a.toNat % 16 * 4096 + b.toNat % 64 * 64 + c.toNat % 64) :: decode bs
            else match bs with
              | [] => []
              | d :: bs =>
                .ofNat (a.toNat % 8 * 262144 + b.toNat % 64 * 4096 + c.toNat % 64 * 64 +
                  d.toNat % 64) :: decode bs

theorem toNat_lt (c : Char) : c.val.toNat < 0x110000 := by
  have h := c.valid
  simp only [UInt32.isValidChar, Nat.isValidChar] at h
  omega

theorem decode_encoded (c : Char) (bs : List UInt8) : decode (String.utf8EncodeChar c ++ bs) = c :: decode bs := by
  have hc := toNat_lt c
  have hself : ∀ n, n = c.val.toNat → Char.ofNat n = c := by
    rintro _ rfl
    exact Char.ofNat_toNat c
  have hbyte : ∀ n, n < 256 → (UInt8.ofNat n).toNat = n := fun n hn => by
    rw [UInt8.toNat_ofNat', Nat.mod_eq_of_lt hn]
  unfold String.utf8EncodeChar
  generalize hv : c.val.toNat = v at hc hself
  dsimp only
  split
  · simp only [List.cons_append, List.nil_append, decode.eq_def (_ :: _)]
    rw [hbyte v (by omega), if_pos (by omega), hself v rfl]
  split
  · simp only [List.cons_append, List.nil_append, decode.eq_def (_ :: _ :: _)]
    rw [hbyte (v / 64 % 32 + 192) (by omega), hbyte (v % 64 + 128) (by omega), if_neg (by omega),
      if_pos (by omega), hself _ (by omega)]
  split
  · simp only [List.cons_append, List.nil_append, decode.eq_def (_ :: _ :: _)]
    rw [hbyte (v / 4096 % 16 + 224) (by omega), hbyte (v / 64 % 64 + 128) (by omega),
      hbyte (v % 64 + 128) (by omega), if_neg (by omega), if_neg (by omega), if_pos (by omega),
      hself _ (by omega)]
  · simp only [List.cons_append, List.nil_append, decode.eq_def (_ :: _ :: _)]
    rw [hbyte (v / 262144 % 8 + 240) (by omega), hbyte (v / 4096 % 64 + 128) (by omega),
      hbyte (v / 64 % 64 + 128) (by omega), hbyte (v % 64 + 128) (by omega), if_neg (by omega),
      if_neg (by omega), if_neg (by omega), hself _ (by omega)]

theorem decode_flatMap (cs : List Char) : decode (cs.flatMap String.utf8EncodeChar) = cs := by
  induction cs with
  | nil => rfl
  | cons c cs ih => rw [List.flatMap_cons, decode_encoded, ih]

/-- The characters of a text. -/
def chars (s : String) : List Char := decode s.toByteArray.data.toList

theorem chars_ofList (cs : List Char) : chars (String.ofList cs) = cs := by
  rw [chars]
  have hbytes : (String.ofList cs).toByteArray.data.toList = cs.flatMap String.utf8EncodeChar := by
    simp [List.utf8Encode]
  rw [hbytes, decode_flatMap]

/-- They are the usual ones. -/
theorem chars_eq (s : String) : chars s = s.toList := by
  have h := chars_ofList s.toList
  rwa [String.ofList_toList] at h

end Workboard.Text
