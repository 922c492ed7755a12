import Esnacc.Generated.SequenceRoundTrip

/-!
When an element is read back from its encoding. The class of the element is assumed to decode its
own contents; what is shown is that the emitted code hands it the right tag and the right length,
through every tag and length in front of them.
-/

namespace Esnacc.Generated

open BitString Tlv

variable {α : Type}

/-- Contents that begin with a tag and a length of their own. -/
structure BerClass.Keyed (cls : BerClass α) (x : α) (key len body : List Octet) : Prop where
  isIdentifier : isIdentifier key = true
  length_key_le : key.length ≤ 4
  isLengthOf : isLengthOf body.length len = true
  length_len_le : len.length ≤ 9
  length_body_lt : body.length < indefiniteLen
  reads : ∀ past rest n, Cursor.Reads (len.reverse ++ (key.reverse ++ past)) rest
    (cls.bDecContent (tagOf key) body.length n) body (x, n + body.length)

namespace BerElmt

/-- What `GetTags` returns for an element, with tags whose numbers are printed in full. -/
structure WellTagged (e : BerElmt α) : Prop where
  choice_of_stole : e.stoleChoiceTags = true → e.kind = .choice
  other_of_short : e.hasShortLen = true → e.kind = .other
  printed : e.stoleChoiceTags = false → ∀ tg ∈ e.tags, tg.Printed
  outer_cons : ∀ tg ∈ e.tags.dropLast, tg.form = .cons

/-- The class of an element decodes what it encodes: contents under the innermost tag, the
alternative of a CHOICE, or an open type with the tag of its own. -/
def Decodes (e : BerElmt α) (x : α) : Prop :=
  match e.kind with
  | .other =>
      (e.hasShortLen = true → (e.cls.bEncContent x).length < 128) ∧
        ∀ tg, e.tags.getLast? = some tg → ∀ past rest n, Cursor.Reads past rest
          (e.cls.bDecContent (tagOf tg.octets) (e.cls.bEncContent x).length n)
          (e.cls.bEncContent x) (x, n + (e.cls.bEncContent x).length)
  | .choice => ∃ key len body, e.cls.bEncContent x = key ++ (len ++ body) ∧
      e.cls.Keyed x key len body ∧
      (e.stoleChoiceTags = true → ∃ tg ∈ e.tags, tg.accepts (tagOf key) = true)
  | .any => ∃ key len body, e.cls.bEnc x = key ++ (len ++ body) ∧ e.cls.Keyed x key len body
  | .anyDefinedBy => ∀ past rest n,
      Cursor.Reads past rest (e.cls.bDec n) (e.cls.bEnc x) (x, n + (e.cls.bEnc x).length)
  | .extension => False

/-- The open types that are read the way they are written: an ANY without a tag or one that is
unwrapped, and an `ANY DEFINED BY` with a tag. -/
def Readable (e : BerElmt α) : Prop :=
  match e.kind with
  | .any => e.tags = [] ∨ e.unwraps = true
  | .anyDefinedBy | .choice | .other => e.tags ≠ []
  | .extension => False

/-- The tags and lengths in front of the contents. -/
def bEncHeaders (isShort : Bool) : List BerTag → List Octet → List Octet
  | [], _ => []
  | tg :: tags, content =>
      tg.octets ++ (bEncLen tg.isCons isShort (bEncTags isShort tags content).length ++
        bEncHeaders isShort tags content)

theorem bEncTags_eq (isShort : Bool) (tags : List BerTag) (content : List Octet) :
    bEncTags isShort tags content = bEncHeaders isShort tags content ++ content := by
  induction tags with
  | nil => rfl
  | cons tg tags ih =>
      show tg.octets ++ (bEncLen tg.isCons isShort (bEncTags isShort tags content).length ++
        bEncTags isShort tags content) = _
      rw [bEncHeaders, List.append_assoc, List.append_assoc, ← ih]

theorem length_bEncTags_le (isShort : Bool) (tg : BerTag) (tags : List BerTag)
    (content : List Octet) :
    (bEncTags isShort tags content).length ≤ (bEncTags isShort (tg :: tags) content).length := by
  show _ ≤ (tg.octets ++ (bEncLen tg.isCons isShort (bEncTags isShort tags content).length ++
    bEncTags isShort tags content)).length
  rw [List.length_append, List.length_append]
  omega

/-- The length behind a tag of an element. -/
theorem isLengthOf_written {isShort : Bool} {tg : BerTag} {tags : List BerTag}
    {content : List Octet} (hcons : ∀ t ∈ (tg :: tags).dropLast, t.form = .cons)
    (hshort : isShort = true → content.length < 128)
    (hlen : (bEncTags isShort tags content).length < 2 ^ 32) :
    isLengthOf (bEncTags isShort tags content).length
      (bEncLen tg.isCons isShort (bEncTags isShort tags content).length) = true := by
  refine isLengthOf_bEncLen hlen fun hprim hs => ?_
  cases tags with
  | nil => exact hshort hs
  | cons tg' tags =>
      have hform := hcons tg (by rw [List.dropLast_cons_cons]; exact List.mem_cons_self)
      rw [BerTag.isCons, hform] at hprim
      cases hprim

/-- All tags behind the first one are found, and the innermost length is that of the contents. -/
theorem bDecTags_reads {isShort : Bool} {tags : List BerTag} {content : List Octet}
    (hprinted : ∀ tg ∈ tags, tg.Printed) (hcons : ∀ tg ∈ tags.dropLast, tg.form = .cons)
    (hshort : isShort = true → content.length < 128)
    (hlen : (bEncTags isShort tags content).length < 2 ^ 32) (tag1 : AsnTag) {lens : List ℕ}
    (hlens : ∀ l ∈ lens, l < indefiniteLen) (past rest : List Octet) (n : ℕ) :
    ∃ lens', (∀ l ∈ lens', l < indefiniteLen) ∧
      Cursor.Reads past rest
        (bDecTags tags tag1 ((bEncTags isShort tags content).length :: lens) n)
        (bEncHeaders isShort tags content)
        (tags.getLast?.elim tag1 fun tg => tagOf tg.octets, content.length :: lens',
          n + (bEncHeaders isShort tags content).length) := by
  induction tags generalizing past n tag1 lens with
  | nil => exact ⟨lens, hlens, Cursor.Reads.pure _ _ _⟩
  | cons tg tags ih =>
      obtain ⟨htg, hprinted⟩ := List.forall_mem_cons.mp hprinted
      have hle := length_bEncTags_le isShort tg tags content
      have hlt : (bEncTags isShort (tg :: tags) content).length < indefiniteLen :=
        hlen.trans (by decide)
      have hcons' : ∀ t ∈ tags.dropLast, t.form = .cons := by
        intro t ht
        cases tags with
        | nil => cases ht
        | cons tg' tags =>
            exact hcons t (by rw [List.dropLast_cons_cons]; exact List.mem_cons_of_mem _ ht)
      have htag := bDecTag_reads past
        (bEncLen tg.isCons isShort (bEncTags isShort tags content).length ++
          bEncHeaders isShort tags content ++ rest)
        htg.isIdentifier_octets htg.length_octets_le n
      have hlength := bDecLen_reads (tg.octets.reverse ++ past)
        (bEncHeaders isShort tags content ++ rest)
        (isLengthOf_written hcons hshort (hle.trans_lt hlen)) (length_bEncLen_le _ _ _)
        (n + tg.octets.length)
      have hlens : ∀ l ∈ (bEncTags isShort (tg :: tags) content).length :: lens,
          l < indefiniteLen := List.forall_mem_cons.mpr ⟨hlt, hlens⟩
      obtain ⟨lens', hlens', hrest⟩ := ih hprinted hcons' (hle.trans_lt hlen) (tagOf tg.octets)
        hlens
        ((bEncLen tg.isCons isShort (bEncTags isShort tags content).length).reverse ++
          (tg.octets.reverse ++ past))
        (n + tg.octets.length +
          (bEncLen tg.isCons isShort (bEncTags isShort tags content).length).length)
      refine ⟨lens', hlens', ?_⟩
      rw [bDecTags, bEncHeaders]
      refine Cursor.Reads.bind htag ?_
      dsimp only
      rw [if_pos htg.accepts_tagOf]
      refine Cursor.Reads.bind hlength ?_
      rw [List.length_append, List.length_append, ← Nat.add_assoc, ← Nat.add_assoc]
      have hlast : ((tg :: tags).getLast?.elim tag1 fun tg => tagOf tg.octets) =
          tags.getLast?.elim (tagOf tg.octets) fun tg => tagOf tg.octets := by
        cases tags with
        | nil => rfl
        | cons tg' tags => rw [List.getLast?_cons_cons]; cases h : (tg' :: tags).getLast? <;> simp at h ⊢
      rw [hlast]
      exact hrest

/-- Definite lengths are not followed by end-of-contents octets. -/
theorem bDecEocs_reads {lens : List ℕ} (h : ∀ l ∈ lens, l < indefiniteLen) (past rest : List Octet)
    (n : ℕ) : Cursor.Reads past rest (bDecEocs lens n) [] n := by
  induction lens with
  | nil => exact Cursor.Reads.pure _ _ _
  | cons l lens ih =>
      obtain ⟨hl, hlens⟩ := List.forall_mem_cons.mp h
      rw [bDecEocs, if_neg hl.ne]
      exact ih hlens

variable {e : BerElmt α} {x : α}

/-- Contents whose tag and length have been read. -/
theorem bDecBody_reads {tag1 : AsnTag} {len : ℕ} {lens : List ℕ} {body : List Octet}
    (hkind : e.kind ≠ .anyDefinedBy) {past rest : List Octet} {n : ℕ}
    (hread : Cursor.Reads past rest (e.cls.bDecContent tag1 len n) body (x, n + body.length)) :
    Cursor.Reads past rest (e.bDecBody tag1 (len :: lens) n) body
      (x, len :: lens, n + body.length) := by
  rw [bDecBody, if_neg hkind]
  exact hread.bind_pure fun r => (r.1, len :: lens, r.2)

/-- The key of contents that begin with a tag and a length of their own. -/
theorem readKey_reads {key len body : List Octet} (h : e.cls.Keyed x key len body)
    (past rest : List Octet) (n : ℕ) (lens : List ℕ) :
    Cursor.Reads past rest (do
      let (tag1, n) ← bDecTag n
      let (elmtLen, n) ← bDecLen n
      return (tag1, elmtLen :: lens, n)) (key ++ len)
      (tagOf key, body.length :: lens, n + key.length + len.length) := by
  refine (bDecTag_reads past (len ++ rest) h.isIdentifier h.length_key_le n).bind ?_
  exact (bDecLen_reads _ rest h.isLengthOf h.length_len_le _).bind_pure
    fun r => (tagOf key, r.1 :: lens, r.2)

/-- Behind the key, the contents are read and no end-of-contents octets are looked for. -/
theorem bDecContents_of_key {tag1 tag2 : AsnTag} {lens lens' : List ℕ} {head body : List Octet}
    {past rest : List Octet} {n : ℕ} (hkind : e.kind ≠ .anyDefinedBy)
    (hkey : Cursor.Reads past (body ++ rest) (e.bDecKey tag1 lens n) head
      (tag2, body.length :: lens', n + head.length))
    (hbody : Cursor.Reads (head.reverse ++ past) rest
      (e.cls.bDecContent tag2 body.length (n + head.length)) body
      (x, n + head.length + body.length))
    (hlens : ∀ l ∈ lens', l < indefiniteLen) :
    Cursor.Reads past rest (e.bDecContents tag1 lens n) (head ++ body)
      (x, tag2, n + (head ++ body).length) := by
  rw [bDecContents, List.length_append, ← Nat.add_assoc]
  refine hkey.bind ?_
  have heocs := (bDecEocs_reads hlens (body.reverse ++ (head.reverse ++ past)) rest
    (n + head.length + body.length)).bind_pure fun n => (x, tag2, n)
  rw [Cursor.Reads]
  dsimp only
  rw [(bDecBody_reads hkind hbody).run_bind]
  exact heocs

/-- The contents under the tags of an element. -/
theorem bDecContents_reads {lens : List ℕ} {tag1 : AsnTag} (hstole : e.stoleChoiceTags = false)
    (hr : e.Readable) (hd : e.Decodes x) (hne : e.tags ≠ [])
    (htag : ∀ tg, e.tags.getLast? = some tg → tag1 = tagOf tg.octets)
    (hlens : ∀ l ∈ (e.bEncValue x).length :: lens, l < indefiniteLen) (past rest : List Octet)
    (n : ℕ) :
    ∃ tag2, Cursor.Reads past rest (e.bDecContents tag1 ((e.bEncValue x).length :: lens) n)
      (e.bEncValue x) (x, tag2, n + (e.bEncValue x).length) := by
  cases hkind : e.kind with
  | extension =>
      rw [Readable, hkind] at hr
      exact hr.elim
  | other =>
      have hvalue : e.bEncValue x = e.cls.bEncContent x := by rw [bEncValue, hkind]
      rw [Decodes] at hd
      simp only [hkind] at hd
      obtain ⟨tg, hlast⟩ := Option.isSome_iff_exists.mp (List.getLast?_isSome.mpr hne)
      have hbody := hd.2 tg hlast past rest n
      rw [← htag tg hlast, ← hvalue] at hbody
      have hunwraps : e.unwraps = false := by
        rw [unwraps, hkind]
        simp
      have hkey : Cursor.Reads past (e.bEncValue x ++ rest)
          (e.bDecKey tag1 ((e.bEncValue x).length :: lens) n) []
          (tag1, (e.bEncValue x).length :: lens, n + ([] : List Octet).length) := by
        rw [bDecKey, if_neg (by rw [hkind]; exact fun h => by cases h.2), hunwraps,
          if_neg Bool.false_ne_true]
        exact Cursor.Reads.pure _ _ _
      exact ⟨tag1, bDecContents_of_key (by rw [hkind]; decide) hkey hbody
        (List.forall_mem_cons.mp hlens).2⟩
  | choice =>
      have hvalue : e.bEncValue x = e.cls.bEncContent x := by rw [bEncValue, hkind]
      rw [Decodes] at hd
      simp only [hkind] at hd
      obtain ⟨key, len, body, hc, hkeyed, -⟩ := hd
      have hkey : Cursor.Reads past (body ++ rest)
          (e.bDecKey tag1 ((e.bEncValue x).length :: lens) n) (key ++ len)
          (tagOf key, body.length :: (e.bEncValue x).length :: lens,
            n + (key ++ len).length) := by
        rw [bDecKey, if_pos ⟨hstole, hkind⟩, List.length_append, ← Nat.add_assoc]
        exact readKey_reads hkeyed past (body ++ rest) n _
      have hbody := hkeyed.reads past rest (n + (key ++ len).length)
      rw [← List.append_assoc, ← List.reverse_append] at hbody
      have hread := bDecContents_of_key (by rw [hkind]; decide) hkey hbody hlens
      rw [List.append_assoc, ← hc, ← hvalue] at hread
      exact ⟨tagOf key, hread⟩
  | any =>
      have hvalue : e.bEncValue x = e.cls.bEnc x := by rw [bEncValue, hkind]
      rw [Decodes] at hd
      simp only [hkind] at hd
      obtain ⟨key, len, body, hc, hkeyed⟩ := hd
      have hunwraps : e.unwraps = true := by
        rw [Readable] at hr
        simp only [hkind] at hr
        exact hr.resolve_left hne
      have hkey : Cursor.Reads past (body ++ rest)
          (e.bDecKey tag1 ((e.bEncValue x).length :: lens) n) (key ++ len)
          (tagOf key, body.length :: lens, n + (key ++ len).length) := by
        rw [bDecKey, if_neg (by rw [hkind]; exact fun h => by cases h.2), if_pos hunwraps,
          List.length_append, ← Nat.add_assoc]
        exact readKey_reads hkeyed past (body ++ rest) n _
      have hbody := hkeyed.reads past rest (n + (key ++ len).length)
      rw [← List.append_assoc, ← List.reverse_append] at hbody
      have hread := bDecContents_of_key (by rw [hkind]; decide) hkey hbody
        (List.forall_mem_cons.mp hlens).2
      rw [List.append_assoc, ← hc, ← hvalue] at hread
      exact ⟨tagOf key, hread⟩
  | anyDefinedBy =>
      have hvalue : e.bEncValue x = e.cls.bEnc x := by rw [bEncValue, hkind]
      rw [Decodes] at hd
      simp only [hkind] at hd
      have hunwraps : e.unwraps = false := by
        rw [unwraps, hkind]
        simp
      have hbody := hd past rest n
      rw [← hvalue] at hbody
      refine ⟨tag1, ?_⟩
      rw [bDecContents, bDecKey, if_neg (by rw [hkind]; exact fun h => by cases h.2), hunwraps,
        if_neg Bool.false_ne_true, pure_bind]
      dsimp only
      rw [bDecBody, if_pos hkind]
      have heocs := (bDecEocs_reads hlens ((e.bEncValue x).reverse ++ past) rest
        (n + (e.bEncValue x).length)).bind_pure fun n => (x, tag1, n)
      rw [Cursor.Reads, bind_assoc, hbody.run_bind]
      exact heocs

/-- A CHOICE without a tag: the tag of the alternative is the tag of the element. -/
theorem recovers_stolen (hw : e.WellTagged) (hd : e.Decodes x) (hstole : e.stoleChoiceTags = true) :
    ∃ p : Piece α, p.value = x ∧ p.octets = e.bEncElmt x ∧ e.Recovers p := by
  have hkind := hw.choice_of_stole hstole
  have hvalue : e.bEncValue x = e.cls.bEncContent x := by rw [bEncValue, hkind]
  rw [Decodes] at hd
  simp only [hkind] at hd
  obtain ⟨key, len, body, hcontent, hkeyed, haccepts⟩ := hd
  obtain ⟨tg, hmem, htg⟩ := haccepts hstole
  obtain ⟨tg', tags, htags⟩ := List.exists_cons_of_ne_nil (List.ne_nil_of_mem hmem)
  rw [htags] at hmem
  refine ⟨⟨x, key, len ++ body⟩, rfl, ?_, by rw [hkind]; decide, hkeyed.isIdentifier,
    hkeyed.length_key_le, ?_, ?_⟩
  · rw [bEncElmt, if_pos hstole, hvalue]
    exact hcontent.symm
  · rw [test, htags]
    simp only [hstole, if_true, Bool.or_eq_true, List.any_eq_true]
    rcases List.mem_cons.mp hmem with rfl | hmem
    · exact .inl htg
    · exact .inr ⟨tg, hmem, htg⟩
  · intro past rest n
    have hlength := bDecLen_reads (key.reverse ++ past) (body ++ rest) hkeyed.isLengthOf
      hkeyed.length_len_le n
    have hunwraps : e.unwraps = false := by
      rw [unwraps, hkind]
      simp
    have hkey : Cursor.Reads (len.reverse ++ (key.reverse ++ past)) (body ++ rest)
        (e.bDecKey (tagOf key) [body.length] (n + len.length)) []
        (tagOf key, [body.length], n + len.length + ([] : List Octet).length) := by
      rw [bDecKey, if_neg (by rw [hstole]; exact fun h => by cases h.1), hunwraps,
        if_neg Bool.false_ne_true]
      exact Cursor.Reads.pure _ _ _
    have hread := bDecContents_of_key (by rw [hkind]; decide) hkey
      (hkeyed.reads past rest (n + len.length)) (by simp)
    refine ⟨tagOf key, ?_⟩
    rw [bDecElmt, bDecHeader, htags, List.length_append, ← Nat.add_assoc]
    dsimp only
    rw [bind_assoc]
    refine hlength.bind ?_
    rw [if_pos hstole]
    exact hread

/-- An untagged ANY: its own tag has been read. -/
theorem recovers_untagged (hr : e.Readable) (hd : e.Decodes x)
    (hstole : e.stoleChoiceTags = false) (htags : e.tags = []) :
    ∃ p : Piece α, p.value = x ∧ p.octets = e.bEncElmt x ∧ e.Recovers p := by
  have hkind : e.kind = .any := by
    rw [Readable] at hr
    cases hk : e.kind with
    | any => rfl
    | extension => rw [hk] at hr; exact hr.elim
    | _ => rw [hk] at hr; exact absurd htags hr
  have hvalue : e.bEncValue x = e.cls.bEnc x := by rw [bEncValue, hkind]
  rw [Decodes] at hd
  simp only [hkind] at hd
  obtain ⟨key, len, body, hcontent, hkeyed⟩ := hd
  refine ⟨⟨x, key, len ++ body⟩, rfl, ?_, by rw [hkind]; decide, hkeyed.isIdentifier,
    hkeyed.length_key_le, ?_, ?_⟩
  · rw [bEncElmt, hstole, if_neg Bool.false_ne_true, htags, hvalue]
    exact hcontent.symm
  · have hne := AsnExtension.tagOf_ne_zero hkeyed.isIdentifier
    rw [test, htags]
    exact Bool.or_eq_true_iff.mpr (.inr (bne_iff_ne.mpr hne))
  · intro past rest n
    have hlength := bDecLen_reads (key.reverse ++ past) (body ++ rest) hkeyed.isLengthOf
      hkeyed.length_len_le n
    have hunwraps : e.unwraps = false := by
      rw [unwraps, htags]
      simp
    have hbody := (hkeyed.reads past rest (n + len.length)).bind_pure
      fun r => (r.1, tagOf key, r.2)
    refine ⟨tagOf key, ?_⟩
    rw [bDecElmt, bDecHeader, htags, List.length_append, ← Nat.add_assoc]
    dsimp only
    rw [pure_bind]
    dsimp only
    rw [bDecContents, bDecKey, if_neg (by rw [hkind]; exact fun h => by cases h.2),
      hunwraps, if_neg Bool.false_ne_true, pure_bind]
    dsimp only
    rw [bDecBody, if_neg (by rw [hkind]; decide)]
    dsimp only
    rw [bind_assoc]
    refine hlength.bind ?_
    rw [bind_assoc]
    exact hbody

/-- An element with tags of its own, which are read one after the other. -/
theorem recovers_tagged (hw : e.WellTagged) (hr : e.Readable) (hd : e.Decodes x)
    (hstole : e.stoleChoiceTags = false) {tg : BerTag} {tags : List BerTag}
    (htags : e.tags = tg :: tags) (hlen : (e.bEncElmt x).length < 2 ^ 32) :
    ∃ p : Piece α, p.value = x ∧ p.octets = e.bEncElmt x ∧ e.Recovers p := by
  have hext : e.kind ≠ .extension := by
    intro hkind
    rw [Readable, hkind] at hr
    exact hr
  have hwritten : e.bEncElmt x = bEncTags e.hasShortLen (tg :: tags) (e.bEncValue x) := by
    rw [bEncElmt, hstole, if_neg Bool.false_ne_true, htags]
  have hshort : e.hasShortLen = true → (e.bEncValue x).length < 128 := by
    intro hs
    have hkind := hw.other_of_short hs
    rw [Decodes] at hd
    simp only [hkind] at hd
    rw [bEncValue, hkind]
    exact hd.1 hs
  have hprinted := hw.printed hstole
  have hcons := hw.outer_cons
  rw [hwritten] at hlen
  rw [htags] at hprinted hcons
  obtain ⟨htg, hprinted⟩ := List.forall_mem_cons.mp hprinted
  have hle := length_bEncTags_le e.hasShortLen tg tags (e.bEncValue x)
  have hcons' : ∀ t ∈ tags.dropLast, t.form = .cons := by
    intro t ht
    cases tags with
    | nil => cases ht
    | cons tg' tags =>
        exact hcons t (by rw [List.dropLast_cons_cons]; exact List.mem_cons_of_mem _ ht)
  have htail := bEncTags_eq e.hasShortLen tags (e.bEncValue x)
  have hsum : (bEncTags e.hasShortLen tags (e.bEncValue x)).length =
      (bEncHeaders e.hasShortLen tags (e.bEncValue x)).length + (e.bEncValue x).length := by
    rw [htail, List.length_append]
  have hlt : (e.bEncValue x).length < indefiniteLen := by
    have hbig : (2 : ℕ) ^ 32 < indefiniteLen := by decide
    omega
  refine ⟨⟨x, tg.octets, bEncLen tg.isCons e.hasShortLen
    (bEncTags e.hasShortLen tags (e.bEncValue x)).length ++
      bEncTags e.hasShortLen tags (e.bEncValue x)⟩,
    rfl, hwritten.symm, hext, htg.isIdentifier_octets, htg.length_octets_le, ?_, ?_⟩
  · rw [test, htags]
    simp only [htg.accepts_tagOf, Bool.true_or]
  · intro past rest n
    have hlength := bDecLen_reads (tg.octets.reverse ++ past)
      (bEncTags e.hasShortLen tags (e.bEncValue x) ++ rest)
      (isLengthOf_written hcons hshort (hle.trans_lt hlen)) (length_bEncLen_le _ _ _) n
    obtain ⟨lens, hlens, htagsRead⟩ := bDecTags_reads hprinted hcons' hshort
      (hle.trans_lt hlen) (tagOf tg.octets) (List.forall_mem_nil _)
      ((bEncLen tg.isCons e.hasShortLen
        (bEncTags e.hasShortLen tags (e.bEncValue x)).length).reverse ++
          (tg.octets.reverse ++ past)) (e.bEncValue x ++ rest)
      (n + (bEncLen tg.isCons e.hasShortLen
        (bEncTags e.hasShortLen tags (e.bEncValue x)).length).length)
    have hlast : ∀ t, e.tags.getLast? = some t →
        (tags.getLast?.elim (tagOf tg.octets) fun tg => tagOf tg.octets) = tagOf t.octets := by
      intro t ht
      rw [htags] at ht
      cases tags with
      | nil => cases ht; rfl
      | cons tg' tags =>
          rw [List.getLast?_cons_cons] at ht
          rw [ht]
          rfl
    obtain ⟨tag2, hcontents⟩ := bDecContents_reads hstole hr hd
      (by rw [htags]; exact List.cons_ne_nil _ _) hlast (List.forall_mem_cons.mpr ⟨hlt, hlens⟩)
      ((bEncHeaders e.hasShortLen tags (e.bEncValue x)).reverse ++ ((bEncLen tg.isCons
        e.hasShortLen (bEncTags e.hasShortLen tags (e.bEncValue x)).length).reverse ++
          (tg.octets.reverse ++ past))) rest
      (n + (bEncLen tg.isCons e.hasShortLen
        (bEncTags e.hasShortLen tags (e.bEncValue x)).length).length +
          (bEncHeaders e.hasShortLen tags (e.bEncValue x)).length)
    refine ⟨tag2, ?_⟩
    rw [bDecElmt, bDecHeader, htags]
    dsimp only
    rw [bind_assoc, List.length_append, ← Nat.add_assoc]
    refine hlength.bind ?_
    rw [hstole, if_neg Bool.false_ne_true]
    have hahead : bEncTags e.hasShortLen tags (e.bEncValue x) ++ rest =
        bEncHeaders e.hasShortLen tags (e.bEncValue x) ++ (e.bEncValue x ++ rest) := by
      rw [htail, List.append_assoc]
    have hpast : (e.bEncValue x).reverse ++
        ((bEncHeaders e.hasShortLen tags (e.bEncValue x)).reverse ++ ((bEncLen tg.isCons
          e.hasShortLen (bEncTags e.hasShortLen tags (e.bEncValue x)).length).reverse ++
            (tg.octets.reverse ++ past))) =
        (bEncTags e.hasShortLen tags (e.bEncValue x)).reverse ++ ((bEncLen tg.isCons
          e.hasShortLen (bEncTags e.hasShortLen tags (e.bEncValue x)).length).reverse ++
            (tg.octets.reverse ++ past)) := by
      rw [← List.append_assoc, ← List.reverse_append, ← htail]
    rw [Cursor.Reads, hpast, Nat.add_assoc _ _ (e.bEncValue x).length, ← hsum] at hcontents
    rw [Cursor.Reads, hahead, htagsRead.run_bind]
    exact hcontents

/-- An element whose class decodes what it encodes is read back. -/
theorem recovers_of_decodes (hw : e.WellTagged) (hr : e.Readable) (hd : e.Decodes x)
    (hlen : (e.bEncElmt x).length < 2 ^ 32) : ∃ p : Piece α, p.value = x ∧ p.octets = e.bEncElmt x ∧ e.Recovers p := by
  cases hstole : e.stoleChoiceTags with
  | true => exact recovers_stolen hw hd hstole
  | false =>
      cases htags : e.tags with
      | nil => exact recovers_untagged hr hd hstole htags
      | cons tg tags => exact recovers_tagged hw hr hd hstole htags hlen

end BerElmt

end Esnacc.Generated
