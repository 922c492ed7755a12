import Esnacc.Generated.Choice
import Esnacc.Generated.SequenceCodec

/-!
The codec of a CHOICE as a whole. What `BDec` makes of the encoding of a value is followed for
every form of the explicit tags: on the CHOICE itself, and in front of the contents of the
alternative.
-/

namespace Esnacc.Generated

open BitString Tlv

variable {α : Type}

namespace BerElmt

variable {e : BerElmt α} {x : α}

/-- The end-of-contents octets behind a body are looked for at all levels but the innermost. -/
theorem bDecContents_of_body (lens₂ : List ℕ) (rest : List Octet) {tag1 tag2 : AsnTag}
    {lens lens₁ : List ℕ} {head body past : List Octet} {n : ℕ}
    (hkey : Cursor.Reads past
      (body ++ List.replicate (lens₂.tail.count indefiniteLen) 0 ++ rest) (e.bDecKey tag1 lens n) head
      (tag2, lens₁, n + head.length))
    (hbody : Cursor.Reads (head.reverse ++ past)
      (List.replicate (lens₂.tail.count indefiniteLen) 0 ++ rest)
      (e.bDecBody tag2 lens₁ (n + head.length)) body (x, lens₂, n + head.length + body.length)) :
    Cursor.Reads past rest (e.bDecContents tag1 lens n)
      (head ++ (body ++ List.replicate (lens₂.tail.count indefiniteLen) 0))
      (x, tag2, n + head.length + body.length + 2 * lens₂.tail.count indefiniteLen) := by
  rw [bDecContents]
  refine Cursor.Reads.bind hkey ?_
  refine Cursor.Reads.bind hbody ?_
  exact (bDecEocs_count lens₂.tail _ rest _).bind_pure fun n => (x, tag2, n)

/-- The contents under the tags of an alternative. -/
theorem bDecContents_forms {tag1 : AsnTag} {lens : List ℕ} (hstole : e.stoleChoiceTags = false)
    (hany : e.kind ≠ .any) (hptr : e.isPtr = false) (hd : e.Decodes x) (hne : e.tags ≠ [])
    (htag : ∀ tg, e.tags.getLast? = some tg → tag1 = tagOf tg.octets)
    (hother : e.kind = .other →
      lens.head? = some (e.bEncValue x).length ∧ (e.bEncValue x).length ≠ indefiniteLen)
    (past rest : List Octet) (n : ℕ) :
    ∃ tag2, Cursor.Reads past rest (e.bDecContents tag1 lens n)
      (e.bEncValue x ++ List.replicate (lens.count indefiniteLen) 0)
      (x, tag2, n + (e.bEncValue x).length + 2 * lens.count indefiniteLen) := by
  have hunwraps : e.unwraps = false := by rw [unwraps, hptr]; rfl
  cases hkind : e.kind with
  | extension =>
      rw [Decodes, hkind] at hd
      exact hd.elim
  | any => exact absurd hkind hany
  | other =>
      have hvalue : e.bEncValue x = e.cls.bEncContent x := by rw [bEncValue, hkind]
      obtain ⟨hhead, hdef⟩ := hother hkind
      obtain ⟨lens', rfl⟩ : ∃ lens', lens = (e.bEncValue x).length :: lens' := by
        cases lens with
        | nil => cases hhead
        | cons l lens' => exact ⟨lens', by rw [Option.some.inj hhead]⟩
      rw [Decodes] at hd
      simp only [hkind] at hd
      obtain ⟨tg, hlast⟩ := Option.isSome_iff_exists.mp (List.getLast?_isSome.mpr hne)
      have hkey : ∀ ahead, Cursor.Reads past ahead
          (e.bDecKey tag1 ((e.bEncValue x).length :: lens') n) []
          (tag1, (e.bEncValue x).length :: lens', n + ([] : List Octet).length) := by
        intro ahead
        rw [bDecKey, if_neg (by rw [hkind]; exact fun h => by cases h.2), hunwraps,
          if_neg Bool.false_ne_true]
        exact Cursor.Reads.pure _ _ _
      have hbody := hd.2 tg hlast past
        (List.replicate (lens'.count indefiniteLen) 0 ++ rest) n
      rw [← htag tg hlast, ← hvalue] at hbody
      have hread := bDecContents_of_body ((e.bEncValue x).length :: lens') rest (hkey _)
        (bDecBody_reads (by rw [hkind]; decide) hbody)
      rw [List.count_cons_of_ne hdef]
      exact ⟨tag1, hread⟩
  | choice =>
      have hvalue : e.bEncValue x = e.cls.bEncContent x := by rw [bEncValue, hkind]
      rw [Decodes] at hd
      simp only [hkind] at hd
      obtain ⟨key, len, body, hc, hkeyed, -⟩ := hd
      have hkey : ∀ ahead, Cursor.Reads past ahead (e.bDecKey tag1 lens n) (key ++ len)
          (tagOf key, body.length :: lens, n + (key ++ len).length) := by
        intro ahead
        rw [bDecKey, if_pos ⟨hstole, hkind⟩, List.length_append, ← Nat.add_assoc]
        exact readKey_reads hkeyed past ahead n _
      have hbody := hkeyed.reads past (List.replicate (lens.count indefiniteLen) 0 ++ rest)
        (n + (key ++ len).length)
      rw [← List.append_assoc, ← List.reverse_append] at hbody
      have hread := bDecContents_of_body (body.length :: lens) rest (hkey _)
        (bDecBody_reads (by rw [hkind]; decide) hbody)
      have hlength : n + (e.bEncValue x).length = n + (key ++ len).length + body.length := by
        rw [hvalue, hc, List.length_append, List.length_append, List.length_append]
        omega
      rw [hlength, hvalue, hc]
      simp only [List.append_assoc] at hread ⊢
      exact ⟨tagOf key, hread⟩
  | anyDefinedBy =>
      have hvalue : e.bEncValue x = e.cls.bEnc x := by rw [bEncValue, hkind]
      rw [Decodes] at hd
      simp only [hkind] at hd
      have hkey : ∀ ahead, Cursor.Reads past ahead (e.bDecKey tag1 lens n) []
          (tag1, lens, n + ([] : List Octet).length) := by
        intro ahead
        rw [bDecKey, if_neg (by rw [hkind]; exact fun h => by cases h.2), hunwraps,
          if_neg Bool.false_ne_true]
        exact Cursor.Reads.pure _ _ _
      have hbody : Cursor.Reads past (List.replicate (lens.count indefiniteLen) 0 ++ rest)
          (e.bDecBody tag1 lens n) (e.cls.bEnc x) (x, 0 :: lens, n + (e.cls.bEnc x).length) := by
        rw [bDecBody.eq_def, if_pos hkind]
        exact (hd past _ n).bind_pure fun r => (r.1, 0 :: lens, r.2)
      have hread := bDecContents_of_body (0 :: lens) rest (hkey _) hbody
      rw [hvalue]
      exact ⟨tag1, hread⟩

end BerElmt

theorem head_formLens {isShort : Bool} {ts : List (BerTag × Bool)} {content : List Octet}
    {lens : List ℕ} (hne : ts ≠ []) (hlast : ∀ t, ts.getLast? = some t → t.2 = false) :
    (formLens isShort ts content lens).head? = some content.length := by
  induction ts generalizing lens with
  | nil => exact absurd rfl hne
  | cons t ts ih =>
      obtain ⟨tg, isOpen⟩ := t
      cases ts with
      | nil =>
          have hopen : isOpen = false := hlast (tg, isOpen) rfl
          subst hopen
          rfl
      | cons t' ts =>
          rw [formLens]
          refine ih (List.cons_ne_nil _ _) fun t'' ht'' => hlast t'' ?_
          rw [List.getLast?_cons_cons, ht'']

/-- The tags of an alternative, with the forms of their lengths. The innermost one of a type that
is neither a CHOICE nor open is not explicit. -/
structure BerElmt.Tagging (e : BerElmt α) (ts : List (BerTag × Bool)) : Prop where
  tags_eq : ts.map Prod.fst = e.tags
  last_definite : e.kind = .other → ∀ t, ts.getLast? = some t → t.2 = false

theorem inChoice_bEncValue (e : BerElmt α) (x : α) : e.inChoice.bEncValue x = e.bEncValue x := by
  cases hkind : e.kind <;> simp [BerElmt.bEncValue, BerElmt.inChoice, hkind]

theorem opens_eq_count {isShort : Bool} {ts : List (BerTag × Bool)} {content : List Octet}
    (hlen : (bEncForms isShort ts content).length < 2 ^ 32) :
    opens ts = (formLens isShort ts content []).count indefiniteLen := by
  rw [count_formLens hlen]
  rfl

/-- An alternative behind its first tag. -/
theorem BerElmt.bDecAlternative_forms {e : BerElmt α} {x : α} (hw : e.WellTagged)
    (hstole : e.stoleChoiceTags = false) (hd : e.inChoice.Decodes x) {tg : BerTag} {isOpen : Bool}
    {ts : List (BerTag × Bool)} (htagging : e.Tagging ((tg, isOpen) :: ts))
    (hlen : (bEncForms e.hasShortLen ((tg, isOpen) :: ts) (e.bEncValue x)).length < 2 ^ 32)
    (past rest : List Octet) (n : ℕ) :
    Cursor.Reads past rest
      (e.bDecAlternative (tagOf tg.octets)
        (formLen isOpen (bEncForms e.hasShortLen ts (e.bEncValue x)).length) n)
      (formHeaders e.hasShortLen ts (e.bEncValue x) ++
        (e.bEncValue x ++ List.replicate (opens ((tg, isOpen) :: ts)) 0))
      (x, n + (formHeaders e.hasShortLen ts (e.bEncValue x)).length + (e.bEncValue x).length +
        2 * opens ((tg, isOpen) :: ts)) := by
  have htags : e.tags = tg :: ts.map Prod.fst := htagging.tags_eq.symm
  have hprinted := hw.printed hstole
  have hcons := hw.outer_cons
  rw [htags] at hprinted hcons
  have hle := length_bEncForms_tail_le e.hasShortLen (tg, isOpen) ts (e.bEncValue x)
  have hvalue := inChoice_bEncValue e x
  have hshort : e.hasShortLen = true → (e.bEncValue x).length < 128 := by
    intro hs
    have hkind := hw.other_of_short hs
    have hk : e.inChoice.kind = .other := by simp [inChoice, hkind]
    rw [Decodes] at hd
    simp only [hk] at hd
    rw [bEncValue, hkind]
    exact hd.1 hs
  have htagsRead := bDecTags_forms (fun tg' h => hprinted tg' (List.mem_cons_of_mem _ h))
    (dropLast_tail hcons) hshort (hle.trans_lt hlen) (tagOf tg.octets)
    [formLen isOpen (bEncForms e.hasShortLen ts (e.bEncValue x)).length] past
    (e.bEncValue x ++ List.replicate (opens ((tg, isOpen) :: ts)) 0 ++ rest) n
  have hkinds : e.inChoice.kind ≠ .any := by
    cases hkind : e.kind <;> simp [inChoice, hkind]
  have hlastTag : ∀ tg', e.inChoice.tags.getLast? = some tg' →
      ((ts.map Prod.fst).getLast?.elim (tagOf tg.octets) fun tg => tagOf tg.octets) =
        tagOf tg'.octets := by
    intro tg' hlast
    have hlast' : (tg :: ts.map Prod.fst).getLast? = some tg' := by rw [← htags]; exact hlast
    cases hts : ts.map Prod.fst with
    | nil =>
        rw [hts] at hlast'
        obtain rfl := Option.some.inj hlast'
        rfl
    | cons tg'' tags =>
        rw [hts, List.getLast?_cons_cons] at hlast'
        rw [hlast']
        rfl
  have hother : e.inChoice.kind = .other →
      (formLens e.hasShortLen ((tg, isOpen) :: ts) (e.bEncValue x) []).head? =
        some (e.inChoice.bEncValue x).length ∧
      (e.inChoice.bEncValue x).length ≠ indefiniteLen := by
    intro hk
    have hkind : e.kind = .other := by
      cases hkind : e.kind <;> simp [inChoice, hkind] at hk ⊢
    have hcontent : (e.bEncValue x).length ≤
        (bEncForms e.hasShortLen ((tg, isOpen) :: ts) (e.bEncValue x)).length := by
      rw [bEncForms_eq, List.length_append, List.length_append]
      omega
    rw [hvalue]
    exact ⟨head_formLens (List.cons_ne_nil _ _) (htagging.last_definite hkind),
      ((hcontent.trans_lt hlen).trans (by decide)).ne⟩
  obtain ⟨tag2, hcontents⟩ := bDecContents_forms (e := e.inChoice) (x := x) hstole hkinds rfl hd
    (by rw [show e.inChoice.tags = e.tags from rfl, htags]; exact List.cons_ne_nil _ _) hlastTag
    hother ((formHeaders e.hasShortLen ts (e.bEncValue x)).reverse ++ past) rest
    (n + (formHeaders e.hasShortLen ts (e.bEncValue x)).length)
  rw [hvalue, ← opens_eq_count hlen] at hcontents
  have htail : e.tags.tail = ts.map Prod.fst := by rw [htags, List.tail_cons]
  rw [bDecAlternative, hstole, if_neg Bool.false_ne_true, htail]
  refine Cursor.Reads.bind htagsRead ?_
  exact hcontents.bind_pure fun r => (r.1, r.2.2)

/-- An alternative that is entered by the tag of an alternative of its own. -/
theorem BerElmt.bDecAlternative_stolen {e : BerElmt α} {x : α} (hstole : e.stoleChoiceTags = true)
    (hchoice : e.kind = .choice) {tag : AsnTag} {body past rest : List Octet} {n : ℕ}
    (hread : Cursor.Reads past rest (e.cls.bDecContent tag body.length n) body
      (x, n + body.length)) :
    Cursor.Reads past rest (e.bDecAlternative tag body.length n) body (x, n + body.length) := by
  have hk : e.inChoice.kind = .choice := by simp [inChoice, hchoice]
  have hs : e.inChoice.stoleChoiceTags = true := hstole
  have hunwraps : e.inChoice.unwraps = false := by
    rw [unwraps, show e.inChoice.isPtr = false from rfl]
    rfl
  have hkey : ∀ ahead, Cursor.Reads past ahead (e.inChoice.bDecKey tag [body.length] n) []
      (tag, [body.length], n + ([] : List Octet).length) := by
    intro ahead
    rw [bDecKey, if_neg (by rw [hs]; exact fun h => by cases h.1), hunwraps,
      if_neg Bool.false_ne_true]
    exact Cursor.Reads.pure _ _ _
  have hbody := @bDecBody_reads _ e.inChoice x tag body.length [] body (by rw [hk]; decide) past rest n
    hread
  have hcontents := bDecContents_of_body [body.length] rest (hkey _) hbody
  have hnil : body ++ List.replicate (([body.length] : List ℕ).tail.count indefiniteLen) 0 = body :=
    List.append_nil body
  rw [hnil] at hcontents
  rw [bDecAlternative, hstole, if_pos rfl]
  exact hcontents.bind_pure fun r => (r.1, r.2.2)

/-- What a caller that has read the key tag and a length makes of the octets of a value: the
decoder reads all but the last `k` of them, which are zero, and counts them. -/
structure ChoiceType.Enters (t : ChoiceType α) (v : ChoiceValue α) (inner : List Octet) (k : ℕ)
    (key len body : List Octet) (elmtLen : ℕ) : Prop where
  octets_eq : inner = key ++ (len ++ (body ++ List.replicate k 0))
  isIdentifier : isIdentifier key = true
  length_key_le : key.length ≤ 4
  readsLen : ∀ past rest n, Cursor.Reads past rest (bDecLen n) len (elmtLen, n + len.length)
  reads : ∀ past rest n, Cursor.Reads (len.reverse ++ (key.reverse ++ past)) rest
    (t.bDecContent (tagOf key) elmtLen n) body (v, n + body.length + k)

/-- The encodings of the values of a CHOICE, with `k` open lengths inside: of an alternative with
tags of its own, of one whose tags were stolen, and of an unknown element. -/
inductive ChoiceType.Encodes (t : ChoiceType α) : ChoiceValue α → List Octet → ℕ → Prop
  | tagged {i : ℕ} {e : BerElmt α} {x : α} {ts : List (BerTag × Bool)}
      (hget : t.elmts[i]? = some e) (hstole : e.stoleChoiceTags = false)
      (hwritten : e.kind ≠ .anyDefinedBy) (hd : e.inChoice.Decodes x) (htagging : e.Tagging ts) :
      Encodes t (.alternative i x) (bEncForms e.hasShortLen ts (e.bEncValue x)) (opens ts)
  | stolen {i : ℕ} {e : BerElmt α} {x : α} (hget : t.elmts[i]? = some e)
      (hstole : e.stoleChoiceTags = true) (hd : e.inChoice.Decodes x) :
      Encodes t (.alternative i x) (e.bEncValue x) 0
  | extension {key len body : List Octet} (hextensible : t.isExtensible = true)
      (hkeyed : anyClass.Keyed (key ++ (len ++ body)) key len body)
      (hunknown : findCase (tagOf key) t.elmts 0 = none) :
      Encodes t (.extension (key ++ (len ++ body))) (key ++ (len ++ body)) 0

/-- A CHOICE whose emitted code is C++ and can tell its alternatives apart. `BDec` declares
`tagId` again at a second tag. -/
structure ChoiceType.Regular (t : ChoiceType α) : Prop where
  wellTagged : ∀ e ∈ t.elmts, e.kind ≠ .extension → e.WellTagged ∧ e.tags ≠ []
  distinct : ∀ i e tag, t.elmts[i]? = some e → e.hasCase tag = true →
    findCase tag t.elmts 0 = some (i, e)
  printed : ∀ tg ∈ t.tags, tg.Printed
  declared : t.tags.length ≤ 1

theorem kind_of_decodes {e : BerElmt α} {x : α} (hd : e.inChoice.Decodes x) :
    e.kind ≠ .extension := by
  intro hkind
  have hk : e.inChoice.kind = .extension := by simp [BerElmt.inChoice, hkind]
  rw [BerElmt.Decodes, hk] at hd
  exact hd

/-- `BDecContent` is entered by the tag of the alternative. -/
theorem ChoiceType.enters {t : ChoiceType α} (ht : t.Regular) {v : ChoiceValue α}
    {inner : List Octet} {k : ℕ} (h : t.Encodes v inner k) (hlen : inner.length < 2 ^ 32) :
    ∃ key len body elmtLen, t.Enters v inner k key len body elmtLen ∧
      (k = 0 → isLengthOf body.length len = true ∧ len.length ≤ 9 ∧ elmtLen = body.length ∧
        body.length < indefiniteLen) := by
  cases h with
  | @tagged i e x ts hget hstole hwritten hd htagging =>
      have hkind := kind_of_decodes hd
      obtain ⟨hw, hne⟩ := ht.wellTagged e (List.mem_of_getElem? hget) hkind
      cases ts with
      | nil => exact absurd htagging.tags_eq.symm hne
      | cons t' ts =>
          obtain ⟨tg, isOpen⟩ := t'
          have htags : e.tags = tg :: ts.map Prod.fst := htagging.tags_eq.symm
          have htg := hw.printed hstole tg (by rw [htags]; exact List.mem_cons_self)
          have hcons := hw.outer_cons
          rw [htags] at hcons
          have hle := length_bEncForms_tail_le e.hasShortLen (tg, isOpen) ts (e.bEncValue x)
          have hshort : e.hasShortLen = true → (e.bEncValue x).length < 128 := by
            intro hs
            have hother := hw.other_of_short hs
            have hk : e.inChoice.kind = .other := by simp [BerElmt.inChoice, hother]
            rw [BerElmt.Decodes] at hd
            simp only [hk] at hd
            rw [BerElmt.bEncValue, hother]
            exact hd.1 hs
          have hcase : e.hasCase (tagOf tg.octets) = true := by
            rw [BerElmt.hasCase, decide_eq_true hkind, htags]
            simp [BerElmt.test, BerElmt.inSet, htags, htg.accepts_tagOf]
          refine ⟨tg.octets,
            formLength e.hasShortLen tg isOpen (bEncForms e.hasShortLen ts (e.bEncValue x)).length,
            formHeaders e.hasShortLen ts (e.bEncValue x) ++
              (e.bEncValue x ++ List.replicate (opens ((tg, isOpen) :: ts)) 0), _,
            ⟨?_, htg.isIdentifier_octets, htg.length_octets_le, fun past rest n =>
              formLength_reads (hle.trans_lt hlen) (short_of_last hcons hshort) past rest n,
              fun past rest n => ?_⟩, fun hzero => ?_⟩
          · rw [bEncForms_eq, formHeaders, Nat.two_mul, List.replicate_add]
            simp only [List.append_assoc]
          · rw [ChoiceType.bDecContent, ht.distinct i e _ hget hcase]
            have hread := (BerElmt.bDecAlternative_forms hw hstole hd htagging hlen
              ((formLength e.hasShortLen tg isOpen
                (bEncForms e.hasShortLen ts (e.bEncValue x)).length).reverse ++
                  (tg.octets.reverse ++ past)) rest n).bind_pure fun r => (ChoiceValue.alternative i r.1, r.2)
            have hcount : n + (formHeaders e.hasShortLen ts (e.bEncValue x)).length +
                (e.bEncValue x).length + 2 * opens ((tg, isOpen) :: ts) =
                n + (formHeaders e.hasShortLen ts (e.bEncValue x) ++
                  (e.bEncValue x ++ List.replicate (opens ((tg, isOpen) :: ts)) 0)).length +
                  opens ((tg, isOpen) :: ts) := by
              rw [List.length_append, List.length_append, List.length_replicate]
              omega
            rw [← hcount]
            exact hread
          · have hopen : isOpen = false ∧ opens ts = 0 := by
              cases isOpen with
              | true =>
                  rw [opens, List.countP_cons_of_pos rfl] at hzero
                  cases hzero
              | false =>
                  rw [opens, List.countP_cons_of_neg (by simp)] at hzero
                  exact ⟨rfl, hzero⟩
            have hbody : formHeaders e.hasShortLen ts (e.bEncValue x) ++ (e.bEncValue x ++
                List.replicate (opens ((tg, isOpen) :: ts)) 0) =
                bEncForms e.hasShortLen ts (e.bEncValue x) := by
              rw [hzero, bEncForms_eq, hopen.2]
            rw [hbody, hopen.1]
            exact ⟨isLengthOf_bEncLen (hle.trans_lt hlen) (short_of_last hcons hshort),
              length_bEncLen_le _ _ _, rfl, (hle.trans_lt hlen).trans (by decide)⟩
  | @stolen i e x hget hstole hd =>
      have hkind := kind_of_decodes hd
      obtain ⟨hw, hne⟩ := ht.wellTagged e (List.mem_of_getElem? hget) hkind
      have hchoice := hw.choice_of_stole hstole
      have hk : e.inChoice.kind = .choice := by simp [BerElmt.inChoice, hchoice]
      have hvalue : e.bEncValue x = e.cls.bEncContent x := by rw [BerElmt.bEncValue, hchoice]
      rw [BerElmt.Decodes] at hd
      simp only [hk] at hd
      obtain ⟨key, len, body, hc, hkeyed, hstolen⟩ := hd
      have hc' : e.cls.bEncContent x = key ++ (len ++ body) := hc
      have hcase : e.hasCase (tagOf key) = true := by
        obtain ⟨tg, htg, haccepts⟩ := hstolen hstole
        have htg' : tg ∈ e.tags := htg
        rw [BerElmt.hasCase, decide_eq_true hkind]
        cases htags : e.tags with
        | nil => exact absurd htags hne
        | cons tg' tags =>
            rw [htags] at htg'
            rcases List.mem_cons.mp htg' with rfl | hmem
            · simp [BerElmt.test, BerElmt.inSet, htags, haccepts]
            · have hany : (tags.any fun tg => tg.accepts (tagOf key)) = true :=
                List.any_eq_true.mpr ⟨tg, hmem, haccepts⟩
              simp [BerElmt.test, BerElmt.inSet, htags, hstole]
              exact .inr ⟨tg, hmem, haccepts⟩
      refine ⟨key, len, body, body.length, ⟨?_, hkeyed.isIdentifier, hkeyed.length_key_le,
        fun past rest n => bDecLen_reads past rest hkeyed.isLengthOf hkeyed.length_len_le n,
        fun past rest n => ?_⟩, fun _ => ⟨hkeyed.isLengthOf, hkeyed.length_len_le, rfl,
          hkeyed.length_body_lt⟩⟩
      · rw [hvalue, hc', List.replicate_zero, List.append_nil]
      · rw [ChoiceType.bDecContent, ht.distinct i e _ hget hcase]
        exact (BerElmt.bDecAlternative_stolen hstole hchoice (hkeyed.reads past rest n)).bind_pure
          fun r => (ChoiceValue.alternative i r.1, r.2)
  | @extension key len body hextensible hkeyed hunknown =>
      refine ⟨key, len, body, body.length, ⟨?_, hkeyed.isIdentifier, hkeyed.length_key_le,
        fun past rest n => bDecLen_reads past rest hkeyed.isLengthOf hkeyed.length_len_le n,
        fun past rest n => ?_⟩, fun _ => ⟨hkeyed.isLengthOf, hkeyed.length_len_le, rfl,
          hkeyed.length_body_lt⟩⟩
      · rw [List.replicate_zero, List.append_nil]
      · rw [ChoiceType.bDecContent, hunknown]
        dsimp only
        rw [if_pos hextensible]
        exact (hkeyed.reads past rest n).bind_pure fun r => (ChoiceValue.extension r.1, r.2)

theorem ChoiceType.Regular.printed_cons {t : ChoiceType α} (ht : t.Regular) :
    ∀ tg ∈ t.consTags, tg.Printed := by
  intro tg htg
  obtain ⟨tg', htg', rfl⟩ := List.mem_map.mp htg
  exact ⟨(ht.printed tg' htg').code_lt, (ht.printed tg' htg').ne_eoc⟩

theorem ChoiceType.form_consTags (t : ChoiceType α) : ∀ tg ∈ t.consTags, tg.form = .cons := by
  intro tg htg
  obtain ⟨tg', -, rfl⟩ := List.mem_map.mp htg
  rfl

/-- `BDec` leaves one zero octet for each open length, and counts it. -/
theorem ChoiceType.Enters.bDec_reads {t : ChoiceType α} (ht : t.Regular) {v : ChoiceValue α}
    {inner key len body : List Octet} {k elmtLen : ℕ} (h : t.Enters v inner k key len body elmtLen)
    {us : List (BerTag × Bool)} (hus : us.map Prod.fst = t.consTags)
    (hlen : (bEncForms false us inner).length < 2 ^ 32) (past rest : List Octet) (n : ℕ) :
    Cursor.Reads past (List.replicate (k + opens us) 0 ++ rest) (t.bDec n)
      (formHeaders false us inner ++
        (key ++ (len ++ (body ++ List.replicate (opens us) 0))))
      (v, n + (bEncForms false us inner).length) := by
  have htags := bDecTags_forms (by rw [hus]; exact ht.printed_cons)
    (fun tg htg => t.form_consTags tg (by rw [← hus]; exact List.mem_of_mem_dropLast htg))
    (fun hs => Bool.noConfusion hs) hlen 0 [] past
    (key ++ (len ++ (body ++ List.replicate (opens us) 0)) ++
      (List.replicate (k + opens us) 0 ++ rest)) n
  have heocs := bDecEocs_count (formLens false us inner [])
    (body.reverse ++ (len.reverse ++ (key.reverse ++
      ((formHeaders false us inner).reverse ++ past))))
    (List.replicate (k + opens us) 0 ++ rest)
    (n + (formHeaders false us inner).length + key.length + len.length + body.length + k)
  rw [← opens_eq_count hlen] at heocs
  have hcount : n + (formHeaders false us inner).length + key.length + len.length + body.length +
      k + 2 * opens us = n + (bEncForms false us inner).length := by
    rw [bEncForms_eq, h.octets_eq]
    simp only [List.length_append, List.length_replicate]
    omega
  rw [hcount] at heocs
  rw [ChoiceType.bDec, ← hus]
  refine Cursor.Reads.bind htags ?_
  dsimp only
  refine Cursor.Reads.bind (bDecTag_reads _ _ h.isIdentifier h.length_key_le _) ?_
  dsimp only
  refine Cursor.Reads.bind (h.readsLen _ _ _) ?_
  dsimp only
  refine Cursor.Reads.bind (h.reads _ _ _) ?_
  exact heocs.bind_pure fun n => (v, n)

theorem bEncForms_split {inner key len body : List Octet} {k : ℕ} {us : List (BerTag × Bool)}
    (h : inner = key ++ (len ++ (body ++ List.replicate k 0))) :
    bEncForms false us inner = formHeaders false us inner ++
      (key ++ (len ++ (body ++ List.replicate (opens us) 0))) ++
        List.replicate (k + opens us) 0 := by
  have hzeros : List.replicate k (0 : Octet) ++ List.replicate (2 * opens us) 0 =
      List.replicate (opens us) 0 ++ List.replicate (k + opens us) 0 := by
    rw [← List.replicate_add, ← List.replicate_add]
    congr 1
    omega
  have hinner : inner ++ List.replicate (2 * opens us) 0 =
      key ++ (len ++ (body ++ (List.replicate (opens us) 0 ++
        List.replicate (k + opens us) 0))) := by
    rw [← hzeros, h]
    simp only [List.append_assoc]
  rw [bEncForms_eq, hinner]
  simp only [List.append_assoc]

theorem map_of_opens_eq_zero {ts : List (BerTag × Bool)} (h : opens ts = 0) :
    ts = (ts.map Prod.fst).map fun tg => (tg, false) := by
  rw [List.map_map]
  refine (List.map_id ts).symm.trans (List.map_congr_left fun t ht => ?_)
  have hopen : t.2 = false := by
    have hno := List.countP_eq_zero.mp h t ht
    exact Bool.eq_false_iff.mpr hno
  exact Prod.ext rfl hopen

/-- Without an open length the octets are those of the encoder. -/
theorem ChoiceType.bEncContent_of_encodes {t : ChoiceType α} (ht : t.Regular) {v : ChoiceValue α}
    {inner : List Octet} {k : ℕ} (h : t.Encodes v inner k) (hk : k = 0) :
    t.bEncContent v = .ok inner := by
  cases h with
  | @tagged i e x ts hget hstole hwritten hd htagging =>
      have hforms := map_of_opens_eq_zero hk
      rw [ChoiceType.bEncContent, hget, hforms, bEncForms_definite, htagging.tags_eq]
      dsimp only
      rw [BerElmt.bEncAlternative, if_neg hwritten, BerElmt.bEncElmt, hstole,
        if_neg Bool.false_ne_true]
  | @stolen i e x hget hstole hd =>
      have hkind := kind_of_decodes hd
      have hchoice :=
        (ht.wellTagged e (List.mem_of_getElem? hget) hkind).1.choice_of_stole hstole
      rw [ChoiceType.bEncContent, hget]
      dsimp only
      rw [BerElmt.bEncAlternative, if_neg (by rw [hchoice]; decide), BerElmt.bEncElmt, hstole,
        if_pos rfl]
  | extension hextensible hkeyed hunknown =>
      rw [ChoiceType.bEncContent, if_pos hextensible]

/-- The class of a CHOICE. -/
def ChoiceType.cls (t : ChoiceType α) : BerClass (ChoiceValue α) where
  bEncContent v := (t.bEncContent v).toOption.getD []
  bEnc v := (t.bEnc v).toOption.getD []
  bDecContent := t.bDecContent
  bDec := t.bDec

/-- The value of a CHOICE is in turn what an alternative or a member can hold, to any depth. -/
theorem ChoiceType.cls_keyed {t : ChoiceType α} (ht : t.Regular) {v : ChoiceValue α}
    {inner : List Octet} (h : t.Encodes v inner 0) (hlen : inner.length < 2 ^ 32) :
    ∃ key len body, t.cls.bEncContent v = key ++ (len ++ body) ∧ t.cls.Keyed v key len body := by
  obtain ⟨key, len, body, elmtLen, henters, hdefinite⟩ := ChoiceType.enters ht h hlen
  obtain ⟨hlength, hle, rfl, hlt⟩ := hdefinite rfl
  have hcontent := ChoiceType.bEncContent_of_encodes ht h rfl
  refine ⟨key, len, body, ?_, henters.isIdentifier, henters.length_key_le, hlength, hle, hlt,
    fun past rest n => henters.reads past rest n⟩
  have hinner := henters.octets_eq
  rw [List.replicate_zero, List.append_nil] at hinner
  rw [← hinner]
  show (t.bEncContent v).toOption.getD [] = inner
  rw [hcontent]
  rfl

/-! ### A type -/

/-- `CHOICE { flag [0] BOOLEAN }`, with a tag of its own or without. -/
def flagChoice (tags : List BerTag) : ChoiceType (List Octet) := ⟨tags, [booleanElmt 0 false]⟩

theorem regular_flagChoice : (flagChoice []).Regular where
  wellTagged e he _ := by
    obtain rfl := List.mem_singleton.mp he
    exact ⟨booleanElmt_wellTagged false (by decide), List.cons_ne_nil _ _⟩
  distinct i e tag hget hcase := by
    cases i with
    | zero =>
        obtain rfl := Option.some.inj hget
        have hfind : findCase tag [booleanElmt 0 false] 0 =
            if (booleanElmt 0 false).hasCase tag then some (0, booleanElmt 0 false) else none := rfl
        rw [flagChoice, hfind, if_pos hcase]
    | succ i => cases hget
  printed tg htg := (List.not_mem_nil htg).elim
  declared := Nat.zero_le 1

theorem encodes_flagChoice : (flagChoice []).Encodes (.alternative 0 [0xFF])
    (bEncForms true [(⟨.cntx, .prim, 0⟩, false)] [0xFF]) 0 :=
  .tagged (e := booleanElmt 0 false) rfl rfl (by decide) (booleanElmt_decodes 0 false (by decide))
    ⟨rfl, fun _ t ht => by obtain rfl := Option.some.inj ht; rfl⟩

end Esnacc.Generated
