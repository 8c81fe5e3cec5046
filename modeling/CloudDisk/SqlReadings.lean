import CloudDisk.SqlFormats

/-! # Reading a statement back

A family of statements is written with formats. The server sees the text only: it may read the
values that were meant, other values in a statement of the same form, or something else. -/
namespace SqlReadings

open ByteStrings SqlTexts SqlFormats

def quotedBy (b : UInt8) : Segment → Bool
  | .quoted b' _ => b' = b
  | _ => true

/-- How the statements of a family are written, with one kind of quote for each. `rebuild` is
the statement of the same form with other values between the quotes, and `fits` says that the
buffers on the way hold what is put into them. -/
structure Wording (Q : Type) where
  format : Q → CString
  arguments : Q → List Arg
  quote : Q → UInt8
  rebuild : Q → List CString → Option Q
  fits : Q → Bool
  kinds_eq : ∀ q, (arguments q).map Arg.kind = kinds (units (format q))
  split : ∀ q, (segments (units (format q))).map
    (fun ss => apart ss && ss.all (quotedBy (quote q))) = some true
  rebuild_own : ∀ q, (segments (units (format q))).bind
    (fun ss => rebuild q (quotedTexts ss (arguments q))) = some q
  rebuild_format : ∀ q values q', rebuild q values = some q' → format q' = format q

namespace Wording
variable {Q : Type} (w : Wording Q)

def text (q : Q) : CString := sprintf (units (w.format q)) (w.arguments q)

def pieces (q : Q) : List Piece :=
  SqlFormats.pieces ((segments (units (w.format q))).getD []) (w.arguments q)

def tokens (q : Q) : List Token := SqlTexts.tokens .gap (w.pieces q)

/-- The statement of the same form that the text of a statement is read as. -/
def read (q : Q) : Option Q :=
  if w.fits q then do
    let ts ← lex .gap (w.text q)
    let q' ← w.rebuild q (literals ts)
    if w.tokens q' = ts then some q' else none
  else none

/-- The text fits and ends inside a quoted string. -/
def Refused (q : Q) : Prop := w.fits q ∧ lex .gap (w.text q) = none

variable {w} {q q' : Q}

theorem exists_segments (w : Wording Q) (q : Q) : ∃ ss, segments (units (w.format q)) = some ss ∧
    apart ss ∧ (∀ p ∈ ss, quotedBy (w.quote q) p) ∧
      w.rebuild q (quotedTexts ss (w.arguments q)) = some q := by
  obtain ⟨ss, hss, h⟩ := Option.map_eq_some_iff.mp (w.split q)
  have hown := w.rebuild_own q
  rw [hss] at hown
  simp only [Bool.and_eq_true, List.all_eq_true] at h
  exact ⟨ss, hss, h.1, h.2, hown⟩

theorem separated (w : Wording Q) (q : Q) : Separated (w.pieces q) := by
  obtain ⟨ss, hss, ha, -⟩ := w.exists_segments q
  unfold pieces
  rw [hss]
  exact separated_pieces (segments_wf hss) ha ((w.kinds_eq q).trans (segments_kinds hss).symm)

theorem text_eq_render (w : Wording Q) (q : Q) : w.text q = render (w.pieces q) := by
  obtain ⟨ss, hss, -⟩ := w.exists_segments q
  unfold text pieces
  rw [hss]
  exact sprintf_eq_render hss (w.kinds_eq q)

theorem lex_of_clean (hc : ∀ a ∈ w.arguments q, clean (w.quote q) a.text) :
    lex .gap (w.text q) = some (w.tokens q) := by
  rw [text_eq_render]
  apply (lex_pieces_iff (m := .gap) trivial (w.separated q)).mpr
  intro b s hmem
  obtain ⟨ss, hss, -, hquotes, -⟩ := w.exists_segments q
  unfold pieces at hmem
  rw [hss] at hmem
  obtain ⟨⟨k, hk⟩, a, ha, rfl⟩ := mem_pieces_quoted hmem
  obtain rfl : b = w.quote q := by simpa [quotedBy] using hquotes _ hk
  exact hc a ha

theorem rebuild_tokens (w : Wording Q) (q : Q) : w.rebuild q (literals (w.tokens q)) = some q := by
  obtain ⟨ss, hss, -, -, hown⟩ := w.exists_segments q
  unfold tokens
  rw [literals_tokens (m := .gap) trivial (w.separated q)]
  unfold pieces
  rw [hss, Option.getD_some, contents_pieces]
  exact hown

theorem read_of_clean (hfits : w.fits q) (hc : ∀ a ∈ w.arguments q, clean (w.quote q) a.text) :
    w.read q = some q := by
  simp [read, hfits, lex_of_clean hc, rebuild_tokens]

/-- What is read has the tokens of the text. -/
structure Reads (w : Wording Q) (q q' : Q) : Prop where
  fits : w.fits q
  lex : lex .gap (w.text q) = some (w.tokens q')
  rebuilt : ∃ values, w.rebuild q values = some q'

theorem Reads.format_eq (h : w.Reads q q') : w.format q' = w.format q := by
  obtain ⟨values, hv⟩ := h.rebuilt
  exact w.rebuild_format _ _ _ hv

theorem quoted_of_mem_literals {l : CString} (h : l ∈ literals (w.tokens q)) :
    .quoted (w.quote q) l ∈ w.pieces q := by
  obtain ⟨ss, hss, -, hquotes, -⟩ := w.exists_segments q
  unfold tokens at h
  rw [literals_tokens (m := .gap) trivial (w.separated q)] at h
  obtain ⟨piece, hmem, heq⟩ := List.mem_filterMap.mp h
  cases piece with
  | byte b => simp at heq
  | quoted b s =>
    obtain rfl := Option.some.inj heq
    have hmem' := hmem
    unfold pieces at hmem'
    rw [hss] at hmem'
    obtain ⟨⟨k, hk⟩, -⟩ := mem_pieces_quoted hmem'
    obtain rfl : b = w.quote q := by simpa [quotedBy] using hquotes _ hk
    exact hmem

/-- A statement read with values that differ from its own only where these are clean has clean
values everywhere. -/
theorem Reads.clean {l : CString} (h : w.Reads q q')
    (hsimilar : List.Forall₂ Arg.Similar (w.arguments q) (w.arguments q'))
    (hl : l ∈ literals (w.tokens q)) : SqlTexts.clean (w.quote q) l := by
  obtain ⟨ss, hss, -⟩ := w.exists_segments q
  have hk := (w.kinds_eq q).trans (segments_kinds hss).symm
  have halike : Alike (w.pieces q) (w.pieces q') := by
    unfold pieces
    rw [h.format_eq, hss]
    exact alike_pieces (segments_wf hss) hk hsimilar
  have hlex := h.lex
  rw [text_eq_render] at hlex
  exact clean_of_alike halike (m := .gap) trivial (w.separated q) hlex _ _
    (quoted_of_mem_literals hl)

theorem contents_pieces_eq (w : Wording Q) (q : Q) :
    contents (w.pieces q) = literals (w.tokens q) :=
  (literals_tokens (m := .gap) trivial (w.separated q)).symm

theorem Reads.head {l : CString} (h : w.Reads q q')
    (hl : (literals (w.tokens q)).head? = some l) (hc : SqlTexts.clean (w.quote q) l) :
    (literals (w.tokens q')).head? = some l := by
  have hlex := h.lex
  rw [text_eq_render] at hlex
  refine head_literal (m := .gap) trivial (w.separated q) hlex ?_ fun b hb => ?_
  · rw [contents_pieces_eq, hl]
  · obtain ⟨ss, hss, -, hquotes, -⟩ := w.exists_segments q
    unfold pieces at hb
    rw [hss] at hb
    obtain ⟨⟨k, hk⟩, -⟩ := mem_pieces_quoted hb
    obtain rfl : b = w.quote q := by simpa [quotedBy] using hquotes _ hk
    exact hc

end Wording

end SqlReadings
