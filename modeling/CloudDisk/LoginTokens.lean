import CloudDisk.Base64
import CloudDisk.DesTexts
import CloudDisk.Md5Digests
import CloudDisk.SessionTokens
import CloudDisk.SqlTemplates

/-! # The digest of a login

What `set_token` makes of the user's name and four random numbers: the text is encrypted, the
ciphertext is written in base64, and the md5 sum of that is the token. The results about tokens
hold of any digest; this is the one of the source. It never fails, and its texts fit the arrays
`enc_tmp` and `base64`, whatever the encryption finds on the stack. -/
namespace LoginTokens

open ByteStrings CheckedCode CommandPrograms DiskState HandlerRules SqlFormats SqlTemplates
  SessionTokens DesTexts Base64 Md5 Md5Digests

/-- `tmp` of `set_token`. -/
def tokenText (user : CString) (rand : Fin 4 → ℕ) : CString :=
  sprintf (units (cstr "%s%d%d%d%d"))
    (.str user :: (List.ofFn rand).map fun n : ℕ => .int ((n % 1000 : ℕ) : ℤ))

/-- `decrypt` of `set_token`, or nothing when the fuel for the blocks runs out. -/
def tokenBytes (stack : ℕ → KeyArray) (malloc : Bool) (context : Context) (fuel : ℕ)
    (tmp : CString) : Checked (DesTexts.Outcome (Option (List UInt8))) := do
  match ← desEnc stack malloc tmp with
  | .error rv => return .error rv
  | .ok encTmp =>
    let base64 ← base64Encode encTmp
    return .ok (digest fuel context [untilNul base64])

/-- The digest as `set_token` uses it. -/
def loginDigest (stack : ℕ → KeyArray) (malloc : Bool) (context : Context) (fuel : ℕ) : Digest :=
  fun tmp =>
    match tokenBytes stack malloc context fuel tmp with
    | .ok (.ok (some bytes)) => if h : bytes.length = 16 then some ⟨bytes.toArray, h⟩ else none
    | _ => none

theorem length_md5 (message : List UInt8) : (Rfc1321.md5 message).length = 16 := by
  simp [Rfc1321.md5, Rfc1321.Registers.words, Rfc1321.bytes]

theorem length_hexText (bytes : List UInt8) : (hexText bytes).length = 2 * bytes.length := by
  rw [hexText, List.length_flatMap]
  simp [Nat.mul_comm]

theorem length_tokenText_le (user : CString) (rand : Fin 4 → ℕ) :
    (tokenText user rand).length ≤ user.length + 12 := by
  have hunits : units (cstr "%s%d%d%d%d") =
      [.conv .str, .conv .int, .conv .int, .conv .int, .conv .int] := eval_format units _ rfl
  have hdigits : ∀ n : ℕ, (intText ((n % 1000 : ℕ) : ℤ)).length ≤ 3 := fun n => by
    rw [intText, if_neg (by omega), Int.natAbs_natCast]
    exact length_natText_le (by decide) (Nat.mod_lt _ (by decide))
  have hsum := List.sum_le_card_nsmul
    (((List.ofFn rand).map fun n : ℕ => Arg.int ((n % 1000 : ℕ) : ℤ)).map fun a => a.text.length) 3
    (by
      simp only [List.map_map, List.mem_map]
      rintro _ ⟨n, -, rfl⟩
      exact hdigits n)
  rw [List.length_map, List.length_map, List.length_ofFn, smul_eq_mul] at hsum
  rw [tokenText, hunits, length_sprintf (by simp [kinds]), List.map_cons, List.sum_cons]
  change 0 + (user.length + _) ≤ _
  omega

section Stages
variable {stack : ℕ → KeyArray} {malloc : Bool} {context : Context} {fuel : ℕ} {tmp : CString}

theorem desEnc_short (h : tmp.length < 1024) :
    ∃ encTmp, desEnc stack malloc tmp = .ok (.ok encTmp) ∧ encTmp.length ≤ 1024 := by
  cases malloc with
  | false => exact ⟨[], rfl, Nat.zero_le _⟩
  | true =>
    refine ⟨_, desEnc_eq stack (by omega), ?_⟩
    rw [length_mapBlocks (fun _ _ _ => length_rawBlock _ _ _) 0 (padded_blocks tmp),
      ← padded_blocks, length_padded, padLen]
    omega

/-- The texts on the way from a login's text to its digest, inside `enc_tmp` and `base64`. -/
structure Stages (stack : ℕ → KeyArray) (malloc : Bool) (tmp encTmp base64 : CString) : Prop where
  encrypted : desEnc stack malloc tmp = .ok (.ok encTmp)
  encrypted_fits : encTmp.length ≤ 1024 * 2
  encoded : base64Encode encTmp = .ok (base64 ++ [0])
  encoded_fits : (base64 ++ [0]).length ≤ 1024 * 3

theorem tokenBytes_eq (h : tmp.length < 1024) (hfuel : 2 ^ 25 ≤ fuel) :
    ∃ encTmp base64, Stages stack malloc tmp encTmp base64 ∧
      tokenBytes stack malloc context fuel tmp = .ok (.ok (some (Rfc1321.md5 base64))) := by
  obtain ⟨encTmp, henc, hlen⟩ := @desEnc_short stack malloc tmp h
  obtain ⟨out, hout, base64, rfl, hcode⟩ := encodeLoop_spec 0 encTmp (by omega)
  have hfits : base64.length < 1024 * 3 := by
    rw [hcode.length_eq]
    omega
  have htext : untilNul (base64 ++ [0]) = base64 := by
    rw [ByteBuffers.Buffer.untilNul_append, untilNul_of_notMem hcode.nul_notMem]
  have hdigest : digest fuel context [base64] = some (Rfc1321.md5 base64) := by
    have hpieces := digest_eq context [base64] (by simpa using by omega) hfuel
    rwa [List.flatten_singleton] at hpieces
  refine ⟨encTmp, base64, ⟨henc, by omega, hout, ?_⟩, ?_⟩
  · rw [List.length_append, List.length_singleton]
    omega
  · change (desEnc stack malloc tmp >>= _) = _
    rw [henc]
    change (base64Encode encTmp >>= _) = _
    rw [base64Encode, hout]
    change Except.ok (Except.ok (digest fuel context [untilNul (base64 ++ [0])])) = _
    rw [htext, hdigest]

end Stages

/-- A login that reaches Redis stores the md5 sum of the encrypted text as 32 digits. The name
stands in `char user[128]`. -/
theorem setToken_login (stack : ℕ → KeyArray) (malloc : Bool) (context : Context) {fuel : ℕ}
    {user : CString} (rand : Fin 4 → ℕ) (hu : user.length < 128) (hfuel : 2 ^ 25 ≤ fuel)
    (d : Disk) :
    Spec Cmd.exec NoFail (setToken (loginDigest stack malloc context fuel) user rand) d
      fun r d' => r.1 = 0 ∧ r.2.length = 32 ∧
        d' = { d with redis := Function.update d.redis user (some (.string r.2)) } ∧
        ∃ encTmp base64, Stages stack malloc (tokenText user rand) encTmp base64 ∧
          r.2 = hexText (Rfc1321.md5 base64) := by
  have hlen := length_tokenText_le user rand
  obtain ⟨encTmp, base64, hstages, hbytes⟩ :=
    @tokenBytes_eq stack malloc context fuel (tokenText user rand) (by omega) hfuel
  have hdigest : loginDigest stack malloc context fuel (tokenText user rand) =
      some ⟨(Rfc1321.md5 base64).toArray, length_md5 base64⟩ := by
    rw [loginDigest, hbytes]
    exact dif_pos (length_md5 base64)
  unfold setToken
  refine spec_ropConnect ?_ NoFail.elim
  rw [if_neg (by simp)]
  dsimp only
  rw [tokenText] at hdigest
  rw [hdigest]
  apply spec_call
  intro o ho
  cases o with
  | fail => exact NoFail.elim ho
  | ok k =>
    refine spec_ret ⟨rfl, ?_, rfl, encTmp, base64, hstages, rfl⟩
    exact (length_hexText _).trans (congrArg (2 * ·) (length_md5 base64))

end LoginTokens
