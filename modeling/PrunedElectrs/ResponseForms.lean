/-
PrunedElectrs/ResponseForms.lean

What the client accepts as a run of headers, in either form of a response.

`VariableHeaders` follows both walks over a run that is there.  Here the way
back: whatever text the count accepts, and whatever bytes the decoder accepts,
is the serialization of a run of headers the network can carry (`IsRun`), so
both are compared with one specification:

* `countHex_eq_ok_iff` and `split_eq_ok_iff` for the concatenated form,
* `countEach_iff` and `parseList_eq_ok_iff` for the list form.

`countCarried_iff_parse` puts them together.  The two forms are compared in
`forms_agree_iff`: the list form is decoded as far as the caller asked, while a
concatenated run has to end there.
-/
import PrunedElectrs.VariableHeaders

namespace PrunedElectrs

open Wire

namespace VariableHeaders

variable {network : Network}

/-- Headers of either version, in any order, that the network can carry. -/
def IsRun (network : Network) (run : List AnyHeader) : Prop :=
  ∀ h ∈ run, h.Streamable ∧ Carries network h

/-! ### Which headers there are to find -/

/-- Bytes as long as their version field says are a header. -/
theorem exists_header {b : Bytes}
    (hb : lengthFor network (u32of (sub b 0 4) &&& versionHeaderV2Flag != 0) = .ok b.length) :
    ∃ h : AnyHeader, h.Streamable ∧ Carries network h ∧ h.serialize = b := by
  by_cases hv : u32of (sub b 0 4) &&& versionHeaderV2Flag = 0
  · rw [hv] at hb
    have hlen : b.length = headerV1Size := (Except.ok.inj hb).symm
    exact ⟨.v1 (HeaderV1.read b hlen), hv, .inr rfl, HeaderV1.serialize_read hlen⟩
  · rw [bne_iff_ne.mpr hv, lengthFor, if_neg (by decide)] at hb
    split_ifs at hb with hsupports
    have hlen : b.length = headerV2Size := (Except.ok.inj hb).symm
    rw [Bool.not_eq_true', Bool.not_eq_false] at hsupports
    exact ⟨.v2 (HeaderV2.read b hlen), HeaderV2.version_read_clear hlen, .inl hsupports,
      HeaderV2.serialize_read hlen hv⟩

/-! ### The concatenated form -/

/-- What the count of a text of digits has walked over is a run. -/
theorem run_of_countHexFrom {hex : List Char} (hd : IsHex hex) {o count m : ℕ}
    (ho : o ≤ hex.length) (h : countHexFrom network hex o count = .ok (m : ℤ)) :
    ∃ run, IsRun network run ∧ m = count + run.length
      ∧ ofHex (hex.drop o) = some (run.flatMap AnyHeader.serialize) := by
  -- on the length of what is left; each header shortens it
  induction hk : hex.length - o using Nat.strongRecOn generalizing o count with
  | ind k ih =>
      rw [countHexFrom] at h
      by_cases hlt : o < hex.length
      · rw [if_pos hlt] at h
        split_ifs at h with hv1
        · exact absurd (Except.ok.inj h) (by omega)
        · split at h
          · exact absurd (Except.ok.inj h) (by omega)
          · exact absurd (Except.ok.inj h) (by omega)
          · cases h
          · next n hat =>
              split_ifs at h with hshort
              · exact absurd (Except.ok.inj h) (by omega)
              · have hn := le_of_lengthAt hat
                obtain ⟨run, hrun, hm, hrest⟩ := ih _ (by omega) (by omega) h rfl
                -- the digits of the header, and the bytes they write
                have hslice : (sub hex o (2 * n)).length = 2 * n := length_sub (by omega)
                have hdigits : IsHex (sub hex o (2 * n)) := fun c hc =>
                  hd c (List.mem_of_mem_drop (List.mem_of_mem_take hc))
                obtain ⟨b, hb⟩ := exists_ofHex hdigits hslice
                obtain rfl : b.length = n := by
                  have := length_of_ofHex hb
                  omega
                obtain ⟨x, hx, hv⟩ := AnyHeader.fourthByte_of_version (show 4 ≤ b.length by omega)
                rw [lengthAt_of_ofHex hb (by omega) hx, hv] at hat
                obtain ⟨header, hs, hcarries, rfl⟩ := exists_header hat
                refine ⟨header :: run, List.forall_mem_cons.mpr ⟨⟨hs, hcarries⟩, hrun⟩,
                  by rw [hm, List.length_cons]; omega, ?_⟩
                have hsplit : hex.drop o = sub hex o (2 * header.serialize.length)
                    ++ hex.drop (o + header.serialize.length * 2) := by
                  rw [sub, Nat.mul_comm, ← List.drop_drop, List.take_append_drop]
                rw [hsplit, List.flatMap_cons]
                exact ofHex_append hb hrest
      · rw [if_neg hlt] at h
        have hm : (count : ℤ) = m := Except.ok.inj h
        refine ⟨[], List.forall_mem_nil _, by rw [List.length_nil]; omega, ?_⟩
        rw [List.drop_eq_nil_of_le (by omega)]
        rfl

/-- A text of digits counts as `n` headers when it is the text of a run of `n`. -/
theorem countHex_eq_ok_iff {hex : List Char} (hd : IsHex hex) {n : ℕ} :
    countHex network hex = .ok (n : ℤ) ↔
      ∃ run, IsRun network run ∧ run.length = n
        ∧ ofHex hex = some (run.flatMap AnyHeader.serialize) := by
  constructor
  · intro h
    obtain ⟨run, hrun, hn, hbytes⟩ := run_of_countHexFrom hd (Nat.zero_le _) h
    exact ⟨run, hrun, by omega, hbytes⟩
  · rintro ⟨run, hrun, rfl, hbytes⟩
    exact countHex_run (fun h hh => (hrun h hh).1) (fun h hh => (hrun h hh).2) hbytes

/-- What the decoder has split off is a run. -/
theorem run_of_splitFrom {bytes : Bytes} {count : ℤ} {remaining i o o' : ℕ}
    {headers found : List Drongo.BlockHeader} (ho : o ≤ bytes.length)
    (h : splitFrom network bytes count remaining i o headers = .ok (found, o')) :
    ∃ run, IsRun network run ∧ run.length = remaining
      ∧ bytes.drop o = run.flatMap AnyHeader.serialize ++ bytes.drop o' := by
  induction remaining generalizing i o headers with
  | zero =>
      rw [splitFrom] at h
      cases h
      exact ⟨[], List.forall_mem_nil _, rfl, rfl⟩
  | succ remaining ih =>
      have hv1 : Drongo.headerV1Length = 80 := rfl
      rw [splitFrom] at h
      split_ifs at h with hshort
      rw [isV2_eq (by omega), java_ok_bind] at h
      rcases hlength : lengthFor network (u32of (sub bytes o 4) &&& versionHeaderV2Flag != 0)
        with e | n
      · rw [hlength] at h
        cases h
      · rw [hlength, java_ok_bind] at h
        split_ifs at h with hlong
        -- the bytes of the header
        have hn := le_of_lengthFor hlength
        have hlen : (sub bytes o n).length = n := length_sub (by omega)
        have hversion : sub (sub bytes o n) 0 4 = sub bytes o 4 := sub_of_sub (by omega)
        rw [← hversion] at hlength
        obtain ⟨header, hs, hcarries, hbytes⟩ :=
          exists_header (hlength.trans (congrArg Except.ok hlen.symm))
        obtain rfl : header.size = n := by
          rw [← header.length_serialize, hbytes, hlen]
        rw [Drongo.BlockHeader.parse_of_any hs hbytes.symm, java_ok_bind] at h
        obtain ⟨run, hrun, hremaining, hrest⟩ := ih (by omega) h
        refine ⟨header :: run, List.forall_mem_cons.mpr ⟨⟨hs, hcarries⟩, hrun⟩,
          congrArg Nat.succ hremaining, ?_⟩
        rw [List.flatMap_cons, List.append_assoc, ← hrest, hbytes, sub, ← List.drop_drop,
          List.take_append_drop]

/-- Bytes split into `n` headers when they are a run of `n`. -/
theorem split_eq_ok_iff {bytes : Bytes} {n : ℤ} {headers : List Drongo.BlockHeader} :
    split network bytes n = .ok headers ↔
      ∃ run, IsRun network run ∧ (run.length : ℤ) = n ∧ bytes = run.flatMap AnyHeader.serialize
        ∧ headers = run.map Drongo.BlockHeader.ofAny := by
  constructor
  · intro h
    obtain ⟨run, hrun, hn, hbytes⟩ : ∃ run, IsRun network run ∧ (run.length : ℤ) = n
        ∧ bytes = run.flatMap AnyHeader.serialize := by
      rw [split, checkCapacity] at h
      split_ifs at h with hneg
      · cases h
      · rw [java_ok_bind] at h
        rcases hfrom : splitFrom network bytes n n.toNat 0 0 [] with e | ⟨found, o⟩
        · rw [hfrom] at h
          cases h
        · rw [hfrom, java_ok_bind] at h
          simp only at h
          split_ifs at h with htrailing
          obtain ⟨run, hrun, hn, hbytes⟩ := run_of_splitFrom (Nat.zero_le _) hfrom
          rw [not_ne_iff.mp htrailing, List.drop_length, List.append_nil, List.drop_zero] at hbytes
          exact ⟨run, hrun, by omega, hbytes⟩
    -- and on a run the decoder finds its headers
    refine ⟨run, hrun, hn, hbytes, ?_⟩
    rw [hbytes, ← hn, split_run (fun h hh => (hrun h hh).1) fun h hh => (hrun h hh).2] at h
    exact (Except.ok.inj h).symm
  · rintro ⟨run, hrun, rfl, rfl, rfl⟩
    exact split_run (fun h hh => (hrun h hh).1) fun h hh => (hrun h hh).2

/-! ### The list form -/

/-- An element of the list form that is the text of a header. -/
def IsElement (element : Option (List Char)) (h : AnyHeader) : Prop :=
  ∃ text, element = some text ∧ ofHex text = some h.serialize

theorem countEach_iff {list : List (Option (List Char))}
    (hd : ∀ text, some text ∈ list → IsHex text) :
    countEach network list = .ok true ↔
      ∃ run, IsRun network run ∧ List.Forall₂ IsElement list run := by
  induction list with
  | nil =>
      refine ⟨fun _ => ⟨[], List.forall_mem_nil _, .nil⟩, fun _ => rfl⟩
  | cons element rest ih =>
      have ih := ih fun text htext => hd text (List.mem_cons_of_mem _ htext)
      -- an element that is missing throws, and is no text of a header
      rcases element with - | text
      · constructor
        · intro h
          cases h
        · rintro ⟨run, -, hrun⟩
          rcases hrun with - | ⟨⟨text, htext, -⟩, -⟩
          cases htext
      · have hone : countHex network text = .ok ((1 : ℕ) : ℤ) ↔ ∃ run, IsRun network run
            ∧ run.length = 1 ∧ ofHex text = some (run.flatMap AnyHeader.serialize) :=
          countHex_eq_ok_iff (hd text List.mem_cons_self)
        rw [countEach]
        constructor
        · intro h
          rcases hcount : countHex network text with e | x
          · rw [hcount] at h
            cases h
          · rw [hcount, java_ok_bind] at h
            -- an element that does not count one ends the loop
            split_ifs at h with hx
            · cases h
            · rw [not_ne_iff.mp hx] at hcount
              obtain ⟨one, hcarried, hlen, hbytes⟩ := hone.mp hcount
              obtain ⟨header, rfl⟩ := List.length_eq_one_iff.mp hlen
              obtain ⟨run, hrun, helements⟩ := ih.mp h
              rw [List.flatMap_singleton] at hbytes
              exact ⟨header :: run,
                List.forall_mem_cons.mpr ⟨hcarried header List.mem_cons_self, hrun⟩,
                .cons ⟨text, rfl, hbytes⟩ helements⟩
        · rintro ⟨run, hrun, helements⟩
          rcases helements with - | ⟨⟨text', htext, hbytes⟩, helements⟩
          cases htext
          rw [IsRun, List.forall_mem_cons] at hrun
          have hcount : countHex network text = .ok (1 : ℕ) :=
            hone.mpr ⟨[_], List.forall_mem_singleton.mpr hrun.1, rfl,
              by rw [hbytes, List.flatMap_singleton]⟩
          rw [hcount, java_ok_bind]
          exact ih.mpr ⟨_, hrun.2, helements⟩

section HexToBytes

variable {hexToBytes : HexToBytes}

/-- One element of the list form is decoded as the one header it holds. -/
theorem split_element_eq_ok_iff
    (hhex : ∀ text b, hexToBytes text = .ok b ↔ ofHex text = some b) {text : List Char}
    {hs : List Drongo.BlockHeader} :
    (hexToBytes text >>= fun bytes => split network bytes 1) = .ok hs ↔
      ∃ header, (header.Streamable ∧ Carries network header) ∧ IsElement (some text) header
        ∧ hs = [Drongo.BlockHeader.ofAny header] := by
  constructor
  · intro h
    rcases hbytes : hexToBytes text with e | bytes
    · rw [hbytes] at h
      cases h
    · rw [hbytes, java_ok_bind] at h
      -- a split into one header gives a run of one
      obtain ⟨one, hone, hlen, rfl, rfl⟩ := split_eq_ok_iff.mp h
      obtain ⟨header, rfl⟩ := List.length_eq_one_iff.mp (Int.natCast_inj.mp hlen)
      rw [List.flatMap_singleton] at hbytes
      exact ⟨header, hone header List.mem_cons_self, ⟨text, rfl, (hhex _ _).mp hbytes⟩, rfl⟩
  · rintro ⟨header, hcarried, ⟨text', htext, hbytes⟩, rfl⟩
    cases htext
    rw [(hhex _ _).mpr hbytes, java_ok_bind]
    exact split_eq_ok_iff.mpr ⟨[header], List.forall_mem_singleton.mpr hcarried, rfl,
      (List.flatMap_singleton _ _).symm, rfl⟩

/-- A round of the loop over the list form. -/
theorem parseList_succ_eq_ok_iff
    (hhex : ∀ text b, hexToBytes text = .ok b ↔ ofHex text = some b)
    {list : List (Option (List Char))} {remaining i : ℕ}
    {headers found : List Drongo.BlockHeader} :
    parseList hexToBytes network list (remaining + 1) i headers = .ok found ↔
      ∃ element header, list[i]? = some element
        ∧ (header.Streamable ∧ Carries network header) ∧ IsElement element header
        ∧ parseList hexToBytes network list remaining (i + 1)
            (headers ++ [Drongo.BlockHeader.ofAny header]) = .ok found := by
  rw [parseList]
  rcases hi : list[i]? with - | - | text
  -- a list that is too short
  · constructor
    · intro h
      cases h
    · rintro ⟨element, header, hi', -⟩
      cases hi'
  -- an element that is missing
  · constructor
    · intro h
      cases h
    · rintro ⟨element, header, hi', -, ⟨text, htext, -⟩, -⟩
      cases hi'
      cases htext
  -- a text, which must be the one of a header
  · show (hexToBytes text >>= fun bytes => split network bytes 1 >>= _) = _ ↔ _
    constructor
    · intro h
      rcases hsplit : (hexToBytes text >>= fun bytes => split network bytes 1) with e | hs
      · rw [← bind_assoc, hsplit] at h
        cases h
      · obtain ⟨header, hcarried, helement, rfl⟩ := (split_element_eq_ok_iff hhex).mp hsplit
        rw [← bind_assoc, hsplit] at h
        exact ⟨some text, header, rfl, hcarried, helement, h⟩
    · rintro ⟨element, header, hi', hcarried, helement, hrest⟩
      cases hi'
      rw [← bind_assoc, (split_element_eq_ok_iff hhex).mpr ⟨header, hcarried, helement, rfl⟩]
      exact hrest

/-- The loop over the list form finds the headers of the elements it looks at. -/
theorem parseList_eq_ok_iff (hhex : ∀ text b, hexToBytes text = .ok b ↔ ofHex text = some b)
    {list : List (Option (List Char))} {remaining i : ℕ}
    {headers found : List Drongo.BlockHeader} :
    parseList hexToBytes network list remaining i headers = .ok found ↔
      ∃ run, IsRun network run ∧ run.length = remaining
        ∧ List.Forall₂ IsElement (sub list i remaining) run
        ∧ found = headers ++ run.map Drongo.BlockHeader.ofAny := by
  induction remaining generalizing i headers with
  | zero =>
      rw [parseList]
      constructor
      · intro h
        cases h
        exact ⟨[], List.forall_mem_nil _, rfl, .nil, by simp⟩
      · rintro ⟨run, -, hlen, -, rfl⟩
        rw [List.length_eq_zero_iff.mp hlen, List.map_nil, List.append_nil]
  | succ remaining ih =>
      -- an element at `i` is the first of those that are looked at
      have hfront {element : Option (List Char)} (hi : list[i]? = some element) :
          sub list i (remaining + 1) = element :: sub list (i + 1) remaining := by
        obtain ⟨hlt, helement⟩ := List.getElem?_eq_some_iff.mp hi
        rw [sub, List.drop_eq_getElem_cons hlt, helement, List.take_succ_cons]
        rfl
      rw [parseList_succ_eq_ok_iff hhex]
      constructor
      · rintro ⟨element, header, hi, hcarried, helement, hrest⟩
        obtain ⟨run, hrun, hlen, helements, rfl⟩ := ih.mp hrest
        refine ⟨header :: run, List.forall_mem_cons.mpr ⟨hcarried, hrun⟩, congrArg Nat.succ hlen,
          ?_, by rw [List.append_assoc]; rfl⟩
        rw [hfront hi]
        exact .cons helement helements
      · rintro ⟨run, hrun, hlen, helements, rfl⟩
        rcases hi : list[i]? with - | element
        · -- there is no element to look at
          have hend : list.length ≤ i := List.getElem?_eq_none_iff.mp hi
          have hlen' := helements.length_eq
          rw [sub, List.drop_eq_nil_of_le hend, List.take_nil, List.length_nil, hlen] at hlen'
          cases hlen'
        · rw [hfront hi] at helements
          rcases helements with - | ⟨helement, helements⟩
          rename_i header run
          rw [IsRun, List.forall_mem_cons] at hrun
          refine ⟨element, header, rfl, hrun.1, helement,
            ih.mpr ⟨run, hrun.2, Nat.succ.inj hlen, helements, ?_⟩⟩
          rw [List.append_assoc]
          rfl

/-! ### What the decoder accepts -/

theorem parse_hex_eq_ok_iff (hhex : ∀ text b, hexToBytes text = .ok b ↔ ofHex text = some b)
    {chunk : BlockHeaders} {hex : List Char} (hform : chunk.hex = some hex)
    (hlist : chunk.headers = none) {n : ℤ} {found : List Drongo.BlockHeader} :
    parse hexToBytes network chunk n = .ok found ↔
      ∃ run, IsRun network run ∧ (run.length : ℤ) = n
        ∧ ofHex hex = some (run.flatMap AnyHeader.serialize)
        ∧ found = run.map Drongo.BlockHeader.ofAny := by
  rw [parse, hlist, hform]
  constructor
  · intro h
    rcases hbytes : hexToBytes hex with e | bytes
    · simp only [hbytes] at h
      cases h
    · simp only [hbytes, java_ok_bind] at h
      -- what splits is a run the network carries
      obtain ⟨run, hrun, hn, rfl, rfl⟩ := split_eq_ok_iff.mp h
      exact ⟨run, hrun, hn, (hhex _ _).mp hbytes, rfl⟩
  · rintro ⟨run, hrun, hn, hbytes, rfl⟩
    simp only [(hhex _ _).mpr hbytes, java_ok_bind]
    exact split_eq_ok_iff.mpr ⟨run, hrun, hn, rfl, rfl⟩

theorem parse_list_eq_ok_iff (hhex : ∀ text b, hexToBytes text = .ok b ↔ ofHex text = some b)
    {chunk : BlockHeaders} {list : List (Option (List Char))} (hlist : chunk.headers = some list)
    {n : ℤ} {found : List Drongo.BlockHeader} :
    parse hexToBytes network chunk n = .ok found ↔
      n ≤ list.length ∧ ∃ run, IsRun network run ∧ (run.length : ℤ) = n
        ∧ List.Forall₂ IsElement (list.take n.toNat) run
        ∧ found = run.map Drongo.BlockHeader.ofAny := by
  rw [parse, hlist]
  -- a list that is shorter than the caller expects is refused
  by_cases hfew : (list.length : ℤ) < n
  · simp only [if_pos hfew]
    constructor
    · intro h
      cases h
    · rintro ⟨hle, -⟩
      omega
  · simp only [if_neg hfew, checkCapacity]
    -- no list has a capacity below zero
    by_cases hneg : n < 0
    · rw [if_pos hneg]
      constructor
      · intro h
        cases h
      · rintro ⟨-, run, -, hn, -⟩
        omega
    · rw [if_neg hneg, java_ok_bind, parseList_eq_ok_iff hhex]
      have hfront : sub list 0 n.toNat = list.take n.toNat := by
        rw [sub, List.drop_zero]
      rw [hfront]
      constructor
      · rintro ⟨run, hrun, hn, helements, rfl⟩
        exact ⟨by omega, run, hrun, by omega, helements, rfl⟩
      · rintro ⟨-, run, hrun, hn, helements, rfl⟩
        exact ⟨run, hrun, by omega, helements, rfl⟩

end HexToBytes

/-- Decoded headers serialize to the bytes they were decoded from. -/
theorem flatMap_bitcoinSerialize {run : List AnyHeader} (hrun : IsRun network run) :
    (run.map Drongo.BlockHeader.ofAny).flatMap Drongo.BlockHeader.bitcoinSerialize
      = run.flatMap AnyHeader.serialize := by
  rw [List.flatMap_map]
  exact List.flatMap_congr fun h hh => Drongo.BlockHeader.bitcoinSerialize_ofAny (hrun h hh).1

theorem forall₂_bitcoinSerialize {hexToBytes : HexToBytes}
    (hhex : ∀ text b, hexToBytes text = .ok b ↔ ofHex text = some b)
    {list : List (Option (List Char))} {run : List AnyHeader} (hrun : IsRun network run)
    (helements : List.Forall₂ IsElement list run) :
    List.Forall₂ (fun element header => ∃ text, element = some text
        ∧ hexToBytes text = .ok (Drongo.BlockHeader.bitcoinSerialize header))
      list (run.map Drongo.BlockHeader.ofAny) := by
  induction helements with
  | nil => exact .nil
  | cons helement helements ih =>
      rw [IsRun, List.forall_mem_cons] at hrun
      obtain ⟨text, htext, hbytes⟩ := helement
      refine .cons ⟨text, htext, ?_⟩ (ih hrun.2)
      rw [hhex, hbytes, Drongo.BlockHeader.bitcoinSerialize_ofAny hrun.1.1]

/-- The count, the decoder, and what is decoded, of a response in the concatenated form. -/
theorem countCarried_hex {hexToBytes : HexToBytes}
    (hhex : ∀ text b, hexToBytes text = .ok b ↔ ofHex text = some b) {chunk : BlockHeaders}
    {hex : List Char} (hform : chunk.hex = some hex) (hlist : chunk.headers = none)
    (hd : IsHex hex) (n : ℕ) :
    (countCarried network chunk = .ok (n : ℤ) ↔
      ∃ found, parse hexToBytes network chunk n = .ok found)
    ∧ ((∃ found, parse hexToBytes network chunk n = .ok found) ↔
      ∃ run, IsRun network run ∧ run.length = n
        ∧ hexToBytes hex = .ok (run.flatMap AnyHeader.serialize))
    ∧ ∀ found, parse hexToBytes network chunk n = .ok found →
      found.length = n
        ∧ hexToBytes hex = .ok (found.flatMap Drongo.BlockHeader.bitcoinSerialize) := by
  have hparse (found : List Drongo.BlockHeader) :
      parse hexToBytes network chunk n = .ok found ↔ ∃ run, IsRun network run
        ∧ (run.length : ℤ) = n ∧ ofHex hex = some (run.flatMap AnyHeader.serialize)
        ∧ found = run.map Drongo.BlockHeader.ofAny :=
    parse_hex_eq_ok_iff hhex hform hlist
  have hcount : countCarried network chunk = countHex network hex := by
    simp only [countCarried, hform, hlist]
  -- both sides speak of the same run of headers
  have hrun : (∃ found, parse hexToBytes network chunk n = .ok found) ↔
      ∃ run, IsRun network run ∧ run.length = n
        ∧ hexToBytes hex = .ok (run.flatMap AnyHeader.serialize) := by
    constructor
    · rintro ⟨found, h⟩
      obtain ⟨run, hrun, hn, hbytes, -⟩ := (hparse found).mp h
      exact ⟨run, hrun, Int.natCast_inj.mp hn, (hhex _ _).mpr hbytes⟩
    · rintro ⟨run, hrun, rfl, hbytes⟩
      exact ⟨_, (hparse _).mpr ⟨run, hrun, rfl, (hhex _ _).mp hbytes, rfl⟩⟩
  refine ⟨?_, hrun, fun found h => ?_⟩
  · rw [hcount, countHex_eq_ok_iff hd, hrun]
    simp only [hhex]
  · obtain ⟨run, hrun, hn, hbytes, rfl⟩ := (hparse found).mp h
    rw [flatMap_bitcoinSerialize hrun, List.length_map]
    exact ⟨Int.natCast_inj.mp hn, (hhex _ _).mpr hbytes⟩

/-- The same, in the list form. -/
theorem countCarried_list {hexToBytes : HexToBytes}
    (hhex : ∀ text b, hexToBytes text = .ok b ↔ ofHex text = some b) {chunk : BlockHeaders}
    {list : List (Option (List Char))} (hform : chunk.hex = none)
    (hlist : chunk.headers = some list) (hd : ∀ text, some text ∈ list → IsHex text) :
    (countCarried network chunk = .ok (list.length : ℤ) ↔
      ∃ found, parse hexToBytes network chunk list.length = .ok found)
    ∧ ((∃ found, parse hexToBytes network chunk list.length = .ok found) ↔
      ∃ run, IsRun network run ∧ List.Forall₂ (fun element h => ∃ text, element = some text
        ∧ hexToBytes text = .ok (AnyHeader.serialize h)) list run)
    ∧ ∀ found, parse hexToBytes network chunk list.length = .ok found →
      List.Forall₂ (fun element header => ∃ text, element = some text
        ∧ hexToBytes text = .ok (Drongo.BlockHeader.bitcoinSerialize header)) list found := by
  -- the caller expects as many headers as the list has, so all of it is looked at
  have hparse (found : List Drongo.BlockHeader) :
      parse hexToBytes network chunk list.length = .ok found ↔
        (list.length : ℤ) ≤ list.length ∧ ∃ run, IsRun network run
          ∧ (run.length : ℤ) = list.length
          ∧ List.Forall₂ IsElement (list.take (list.length : ℤ).toNat) run
          ∧ found = run.map Drongo.BlockHeader.ofAny :=
    parse_list_eq_ok_iff hhex hlist
  simp only [Int.toNat_natCast, List.take_length] at hparse
  -- the list is counted as its length or refused
  have hcount : countCarried network chunk = .ok (list.length : ℤ) ↔
      countEach network list = .ok true := by
    simp only [countCarried, hform, hlist]
    rcases countEach network list with e | - | -
    · constructor <;> (intro h; cases h)
    · refine ⟨fun h => ?_, fun h => by cases h⟩
      exact absurd (Except.ok.inj h) (by simp)
    · exact ⟨fun _ => rfl, fun _ => rfl⟩
  have hrun : (∃ found, parse hexToBytes network chunk list.length = .ok found) ↔
      ∃ run, IsRun network run ∧ List.Forall₂ IsElement list run := by
    constructor
    · rintro ⟨found, h⟩
      obtain ⟨-, run, hrun, -, helements, -⟩ := (hparse found).mp h
      exact ⟨run, hrun, helements⟩
    · rintro ⟨run, hrun, helements⟩
      exact ⟨_, (hparse _).mpr ⟨le_rfl, run, hrun,
        congrArg Nat.cast helements.length_eq.symm, helements, rfl⟩⟩
  refine ⟨?_, ?_, fun found h => ?_⟩
  · rw [hcount, countEach_iff hd, hrun]
  · rw [hrun]
    simp only [hhex]
    rfl
  · obtain ⟨-, run, hrun, -, helements, rfl⟩ := (hparse found).mp h
    exact forall₂_bitcoinSerialize hhex hrun helements

/-- **The count and the decoder accept the same responses**: of a response in
one form, whose strings are digits, as many headers are counted as can be
decoded, which are those of a run the network can carry; and what is decoded
serializes to the bytes of the response. -/
theorem countCarried_iff_parse {hexToBytes : HexToBytes}
    (hhex : ∀ text b, hexToBytes text = .ok b ↔ ofHex text = some b) (network : Network)
    (chunk : BlockHeaders) :
    (∀ hex, chunk.hex = some hex → chunk.headers = none → IsHex hex → ∀ n : ℕ,
      (countCarried network chunk = .ok (n : ℤ) ↔
        ∃ found, parse hexToBytes network chunk n = .ok found)
      ∧ ((∃ found, parse hexToBytes network chunk n = .ok found) ↔
        ∃ run, IsRun network run ∧ run.length = n
          ∧ hexToBytes hex = .ok (run.flatMap AnyHeader.serialize))
      ∧ ∀ found, parse hexToBytes network chunk n = .ok found →
        found.length = n
          ∧ hexToBytes hex = .ok (found.flatMap Drongo.BlockHeader.bitcoinSerialize)) ∧
    (∀ list, chunk.hex = none → chunk.headers = some list →
      (∀ text, some text ∈ list → IsHex text) →
      (countCarried network chunk = .ok (list.length : ℤ) ↔
        ∃ found, parse hexToBytes network chunk list.length = .ok found)
      ∧ ((∃ found, parse hexToBytes network chunk list.length = .ok found) ↔
        ∃ run, IsRun network run ∧ List.Forall₂ (fun element h => ∃ text, element = some text
          ∧ hexToBytes text = .ok (AnyHeader.serialize h)) list run)
      ∧ ∀ found, parse hexToBytes network chunk list.length = .ok found →
        List.Forall₂ (fun element header => ∃ text, element = some text
          ∧ hexToBytes text = .ok (Drongo.BlockHeader.bitcoinSerialize header)) list found) := by
  exact ⟨fun hex hform hlist hd n => countCarried_hex hhex hform hlist hd n,
    fun list hform hlist hd => countCarried_list hhex hform hlist hd⟩

/-- A response that carries headers as one string. -/
def concatenated (hs : List AnyHeader) : BlockHeaders where
  count := hs.length
  hex := some (hs.flatMap AnyHeader.serializeHex)
  headers := none
  max := 2016

/-- A response that carries headers as a list. -/
def listed (hs : List AnyHeader) : BlockHeaders where
  count := hs.length
  hex := none
  headers := some (hs.map fun h => some h.serializeHex)
  max := 2016

theorem hexToBytesKnown_eq_ok_iff (text : List Char) (b : Bytes) :
    hexToBytesKnown text = .ok b ↔ ofHex text = some b := by
  rw [hexToBytesKnown]
  rcases ofHex text with - | b'
  · constructor <;> (intro h; cases h)
  · exact ⟨fun h => congrArg some (Except.ok.inj h),
      fun h => congrArg Except.ok (Option.some.inj h)⟩

theorem activation_isRun : IsRun .testnet4 activationHeaders := fun h hh =>
  ⟨(show ∀ h ∈ activationHeaders, h.Streamable by decide +kernel) h hh, .inl rfl⟩

theorem countCarried_iff_parse_activation :
    countCarried .testnet4 (concatenated activationHeaders) = .ok (2 : ℕ)
    ∧ ∃ found, parse hexToBytesKnown .testnet4 (concatenated activationHeaders) 2 = .ok found := by
  have hdigits : IsHex (activationHeaders.flatMap AnyHeader.serializeHex) := by
    have htext := toHex_flatMap AnyHeader.serialize activationHeaders
    exact htext ▸ isHex_toHex _
  obtain ⟨hcount, hrun, -⟩ := (countCarried_iff_parse hexToBytesKnown_eq_ok_iff .testnet4
    (concatenated activationHeaders)).1 _ rfl rfl hdigits 2
  have hfound := hrun.mpr ⟨activationHeaders, activation_isRun, rfl,
    (hexToBytesKnown_eq_ok_iff _ _).mpr (ofHex_flatMap_serializeHex _)⟩
  exact ⟨hcount.mpr hfound, hfound⟩

/-! ### The two forms compared -/

/-- The decoder gives the same headers for both responses, or throws on both. -/
def FormsAgree (hexToBytes : HexToBytes) (network : Network) (hex list : BlockHeaders) (n : ℤ) :
    Prop :=
  (∃ found, parse hexToBytes network hex n = .ok found
    ∧ parse hexToBytes network list n = .ok found)
  ∨ (∃ e, parse hexToBytes network hex n = .error e)
    ∧ ∃ e, parse hexToBytes network list n = .error e

section Forms

variable {hexToBytes : HexToBytes} {hs : List AnyHeader}

/-- A list of texts of headers is a list of those headers only. -/
theorem eq_of_isElement {run : List AnyHeader} (hs : ∀ h ∈ run, h.Streamable)
    {served : List AnyHeader} (hserved : ∀ h ∈ served, h.Streamable)
    (helements : List.Forall₂ IsElement (served.map fun h => some h.serializeHex) run) :
    run = served := by
  induction served generalizing run with
  | nil =>
      cases helements
      rfl
  | cons h served ih =>
      rcases helements with - | ⟨⟨text, htext, hbytes⟩, helements⟩
      rw [List.forall_mem_cons] at hs hserved
      cases htext
      rw [AnyHeader.serializeHex, ofHex_toHex, Option.some.injEq] at hbytes
      have hparse := AnyHeader.parse_serialize_append hserved.1 []
      rw [hbytes, AnyHeader.parse_serialize_append hs.1] at hparse
      rw [Except.ok.inj hparse, ih hs.2 hserved.2 helements]

/-- The concatenated form is decoded when it is asked for as a whole. -/
theorem parse_concatenated (hhex : ∀ text b, hexToBytes text = .ok b ↔ ofHex text = some b)
    (hstream : ∀ h ∈ hs, h.Streamable) {n : ℤ} {found : List Drongo.BlockHeader} :
    parse hexToBytes network (concatenated hs) n = .ok found ↔
      n = hs.length ∧ (∀ h ∈ hs, Carries network h)
        ∧ found = hs.map Drongo.BlockHeader.ofAny := by
  have hform : (concatenated hs).hex = some (hs.flatMap AnyHeader.serializeHex) := rfl
  rw [parse_hex_eq_ok_iff hhex hform rfl]
  constructor
  · rintro ⟨run, hrun, rfl, hbytes, rfl⟩
    rw [ofHex_flatMap_serializeHex, Option.some.injEq] at hbytes
    obtain rfl := AnyHeader.headerCode.flatMap_encode_inj hstream (fun h hh => (hrun h hh).1) hbytes
    exact ⟨rfl, fun h hh => (hrun h hh).2, rfl⟩
  · rintro ⟨rfl, hcarries, rfl⟩
    exact ⟨hs, fun h hh => ⟨hstream h hh, hcarries h hh⟩, rfl, ofHex_flatMap_serializeHex hs, rfl⟩

/-- The list form is decoded as far as it is asked for. -/
theorem parse_listed (hhex : ∀ text b, hexToBytes text = .ok b ↔ ofHex text = some b)
    (hstream : ∀ h ∈ hs, h.Streamable) {n : ℤ} {found : List Drongo.BlockHeader} :
    parse hexToBytes network (listed hs) n = .ok found ↔
      (0 ≤ n ∧ n ≤ hs.length) ∧ (∀ h ∈ hs.take n.toNat, Carries network h)
        ∧ found = (hs.take n.toNat).map Drongo.BlockHeader.ofAny := by
  have hlength : (hs.map fun h => some h.serializeHex).length = hs.length := List.length_map _
  -- each text of the list is the one of its header
  have htexts : List.Forall₂ IsElement
      ((hs.take n.toNat).map fun h => some h.serializeHex) (hs.take n.toNat) := by
    rw [List.forall₂_map_left_iff, List.forall₂_same]
    exact fun h _ => ⟨_, rfl, ofHex_toHex _⟩
  have hserved : ∀ h ∈ hs.take n.toNat, h.Streamable :=
    fun h hh => hstream h (List.mem_of_mem_take hh)
  have hform : (listed hs).headers = some (hs.map fun h => some h.serializeHex) := rfl
  rw [parse_list_eq_ok_iff hhex hform, hlength, ← List.map_take]
  constructor
  · rintro ⟨hle, run, hrun, hn, helements, rfl⟩
    obtain rfl := eq_of_isElement (fun h hh => (hrun h hh).1) hserved helements
    exact ⟨⟨by omega, hle⟩, fun h hh => (hrun h hh).2, rfl⟩
  · rintro ⟨⟨hnonneg, hle⟩, hcarries, rfl⟩
    refine ⟨hle, hs.take n.toNat, fun h hh => ⟨hserved h hh, hcarries h hh⟩, ?_, htexts, rfl⟩
    rw [List.length_take]
    omega

/-- **When the two forms are interchangeable**: they are, unless the caller
expects fewer headers than are carried and the network can carry those; then
the list form gives the first of them and the concatenated form throws. -/
theorem forms_agree_iff (hhex : ∀ text b, hexToBytes text = .ok b ↔ ofHex text = some b)
    (network : Network) (hstream : ∀ h ∈ hs, h.Streamable) (n : ℤ) :
    FormsAgree hexToBytes network (concatenated hs) (listed hs) n ↔
      ¬ ((0 ≤ n ∧ n < hs.length) ∧ ∀ h ∈ hs.take n.toNat, Carries network h) := by
  constructor
  · rintro hagree ⟨⟨hnonneg, hlt⟩, hcarries⟩
    -- the list form gives the first headers, which the other form refuses to do
    have hlist := (parse_listed hhex hstream).mpr ⟨⟨hnonneg, hlt.le⟩, hcarries, rfl⟩
    rcases hagree with ⟨found, hhex', -⟩ | ⟨-, e, he⟩
    · have hn := ((parse_concatenated hhex hstream).mp hhex').1
      omega
    · rw [he] at hlist
      cases hlist
  · intro hfew
    have htake : hs.take (hs.length : ℤ).toNat = hs := by
      rw [Int.toNat_natCast, List.take_length]
    -- the list form throws: then so does the other form, for
    rcases hlist : parse hexToBytes network (listed hs) n with e | found
    · rcases hwhole : parse hexToBytes network (concatenated hs) n with e' | found
      · exact .inr ⟨⟨e', hwhole⟩, e, hlist⟩
      · -- a whole run is also the list of its headers
        obtain ⟨rfl, hcarries, -⟩ := (parse_concatenated hhex hstream).mp hwhole
        have hok := (parse_listed hhex hstream).mpr
          ⟨⟨Int.natCast_nonneg _, le_rfl⟩, htake.symm ▸ hcarries, rfl⟩
        rw [hlist] at hok
        cases hok
    -- the list form gives headers: then there were as many as expected
    · obtain ⟨⟨hnonneg, hle⟩, hcarries, rfl⟩ := (parse_listed hhex hstream).mp hlist
      obtain rfl : n = hs.length := by
        by_contra hne
        exact hfew ⟨⟨hnonneg, by omega⟩, hcarries⟩
      rw [htake] at hcarries hlist
      exact .inl ⟨_, (parse_concatenated hhex hstream).mpr ⟨rfl, hcarries, rfl⟩, hlist⟩

end Forms

theorem forms_agree_iff_activation :
    FormsAgree hexToBytesKnown .testnet4 (concatenated activationHeaders)
      (listed activationHeaders) 2 :=
  (forms_agree_iff hexToBytesKnown_eq_ok_iff .testnet4 (fun h hh => (activation_isRun h hh).1)
    2).mpr fun hfew => absurd hfew.1.2 (by decide)

/-- Asked for one header of two, the list form gives it and the concatenated
form throws. -/
theorem not_formsAgree_activation :
    ¬ FormsAgree hexToBytesKnown .testnet4 (concatenated activationHeaders)
      (listed activationHeaders) 1 := by
  have hstream : ∀ h ∈ activationHeaders, h.Streamable := fun h hh => (activation_isRun h hh).1
  have hlist : parse hexToBytesKnown .testnet4 (listed activationHeaders) 1
      = .ok ((activationHeaders.take 1).map Drongo.BlockHeader.ofAny) :=
    (parse_listed hexToBytesKnown_eq_ok_iff hstream).mpr
      ⟨by decide, fun h hh => (activation_isRun h (List.mem_of_mem_take hh)).2, rfl⟩
  rintro (⟨found, hwhole, -⟩ | ⟨-, e, he⟩)
  · obtain ⟨hn, -⟩ := (parse_concatenated hexToBytesKnown_eq_ok_iff hstream).mp hwhole
    exact absurd hn (by decide)
  · rw [he] at hlist
    cases hlist

end VariableHeaders

end PrunedElectrs
