import JitDt.Regexplib.Acceptor

/-!
# What `readconf` accepts

`readconf` takes a pair with one right token, leaves a block at any lexical error and at the
end of the file, and stops between blocks at any of them. These are the slips of a run over
the words. A file is read soundly exactly when the run meets a test that fails, or makes no
slip and leaves nothing but blanks.
-/

namespace JitDt.Regexplib

set_option autoImplicit false

open Machine (exec exec_cons_iff exec_append_iff exec_comparable exec_unique_of_stuck Along)

/-- A token that the grammar does not have at this place: one of a pair, an error inside a block,
or the end of a list without items. -/
def Slip : Pos → Token → Prop
  | .region, tkn => tkn ≠ .str
  | .brace _, tkn => tkn ≠ .bgn
  | .items any, tkn => tkn.ok = false ∨ (tkn = .close ∧ any = false)
  | .types any, tkn => tkn.ok = false ∨ (tkn = .close ∧ any = false)
  | .equ _, tkn => tkn ≠ .equ
  | .value _ _, tkn => tkn ≠ .str
  | _, _ => False

section Statement
variable (signed : Bool)

/-- A run over the whole file made no slip and left nothing but blanks. -/
def Trusted (content buf : List UInt8) : Prop :=
  ∀ ws x, exec (advance signed) (start content buf) ws = some x → Ends signed x →
    Along (advance signed) (fun y w => ¬ Slip y.pos w.1) (start content buf) ws ∧ x.pos = .top ∧
      Blank signed x.scan.input

/-- A file that `readconf` returns on is written in the grammar and stored as it is written, and
any file that is not is rejected. -/
def Sound (content buf : List UInt8) : Prop :=
  (∀ t, readconf signed (some content) buf = pure t →
    ∃ es, WrittenAs signed content buf es ∧ t = .ofEntries es) ∧
  ((¬ ∃ es, WrittenAs signed content buf es) → ∃ f, readconf signed (some content) buf = throw f)

end Statement

/-! ## The words of a file in the grammar -/

/-- The words that may follow, up to the end of the file. -/
inductive Strict : Pos → List Word → Prop where
  | done : Strict .top []
  | region {ws : List Word} (h : Strict .region ws) : Strict .top (bare (.key .region) :: ws)
  | name {ws : List Word} (s : List UInt8) (h : Strict (.brace true) ws) :
      Strict .region (quote s :: ws)
  | brace {ws : List Word} (h : Strict (.items false) ws) : Strict (.brace true) (bare .bgn :: ws)
  | item {ws : List Word} {any : Bool} (m : Member) (h : Strict (.equ (some m)) ws) :
      Strict (.items any) (bare (.key m.key) :: ws)
  | endRegion {ws : List Word} (h : Strict .top ws) : Strict (.items true) (bare .close :: ws)
  | sync {ws : List Word} (h : Strict .sync ws) : Strict .top (bare (.key .sync) :: ws)
  | syncBrace {ws : List Word} (h : Strict (.types false) ws) : Strict .sync (bare .bgn :: ws)
  | type {ws : List Word} {any : Bool} (h : Strict (.equ none) ws) :
      Strict (.types any) (bare (.key .type) :: ws)
  | endSync {ws : List Word} (h : Strict .top ws) : Strict (.types true) (bare .close :: ws)
  | equ {ws : List Word} {m : Option Member} (h : Strict (.value m true) ws) :
      Strict (.equ m) (bare .equ :: ws)
  | value {ws : List Word} (m : Member) (s : List UInt8) (h : Strict (.items true) ws) :
      Strict (.value (some m) true) (quote s :: ws)
  | typeValue {ws : List Word} (s : List UInt8) (h : Strict (.types true) ws) :
      Strict (.value none true) (quote s :: ws)

theorem Strict.items {items : List (Member × List UInt8)} {ws : List Word} {any : Bool}
    (hany : any = true ∨ items ≠ []) (h : Strict .top ws) :
    Strict (.items any) (itemsWords items ++ (bare .close :: ws)) := by
  induction items generalizing any with
  | nil =>
    obtain rfl : any = true := hany.resolve_right fun h => h rfl
    exact .endRegion h
  | cons i items ih => exact .item i.1 (.equ (.value i.1 i.2 (ih (.inl rfl))))

theorem Strict.types {types : List (List UInt8)} {ws : List Word} {any : Bool}
    (hany : any = true ∨ types ≠ []) (h : Strict .top ws) :
    Strict (.types any) (typesWords types ++ (bare .close :: ws)) := by
  induction types generalizing any with
  | nil =>
    obtain rfl : any = true := hany.resolve_right fun h => h rfl
    exact .endSync h
  | cons s types ih => exact .type (.equ (.typeValue s (ih (.inl rfl))))

theorem strict_entries {es : List Entry} (h : ∀ e ∈ es, e.Full) :
    Strict .top (es.flatMap Entry.words) := by
  induction es with
  | nil => exact .done
  | cons e es ih =>
    have hrest := ih fun e he => h e (List.mem_cons_of_mem _ he)
    have hfull := h e List.mem_cons_self
    rw [List.flatMap_cons]
    cases e with
    | region name items =>
      rw [Entry.words, List.append_assoc, List.append_assoc]
      exact .region (.name name (.brace (.items (.inr hfull) hrest)))
    | sync types =>
      rw [Entry.words, List.append_assoc, List.append_assoc]
      exact .sync (.syncBrace (.types (.inr hfull) hrest))

/-- A word of the grammar is no error, and no slip where it is taken. -/
theorem Strict.step {pos pos' : Pos} {w : Word} {ws : List Word} {t t' : Tables} {buf : List UInt8}
    (h : Strict pos (w :: ws)) (htake : take t buf pos w.1 = some (pos', t')) :
    ¬ Slip pos w.1 ∧ Strict pos' ws := by
  cases h with
  | region h =>
    cases take_cases htake with
    | region => exact ⟨id, h⟩
  | name s h =>
    cases take_cases htake with
    | name => exact ⟨fun hs => hs rfl, h⟩
  | brace h =>
    cases take_cases htake with
    | brace => exact ⟨fun hs => hs rfl, h⟩
  | item m h =>
    have hpos : Pos.equ (some m) = pos' := by
      cases m <;> exact congrArg Prod.fst (Option.some.inj htake)
    rw [← hpos]
    refine ⟨?_, h⟩
    rintro (hs | ⟨hs, _⟩)
    · cases m <;> cases hs
    · cases m <;> cases hs
  | endRegion h =>
    cases take_cases htake with
    | endRegion =>
      refine ⟨?_, h⟩
      rintro (hs | ⟨_, hs⟩) <;> cases hs
    | leaveRegion hok => cases hok
  | sync h =>
    cases take_cases htake with
    | sync => exact ⟨id, h⟩
  | syncBrace h =>
    cases take_cases htake with
    | syncBrace => exact ⟨id, h⟩
  | type h =>
    cases take_cases htake with
    | type =>
      refine ⟨?_, h⟩
      rintro (hs | ⟨hs, _⟩) <;> cases hs
    | leaveSync hok => cases hok
  | endSync h =>
    cases take_cases htake with
    | endSync =>
      refine ⟨?_, h⟩
      rintro (hs | ⟨_, hs⟩) <;> cases hs
    | leaveSync hok => cases hok
  | equ h =>
    cases take_cases htake with
    | equ => exact ⟨fun hs => hs rfl, h⟩
  | value m s h =>
    cases take_cases htake with
    | value => exact ⟨fun hs => hs rfl, h⟩
  | typeValue s h =>
    cases take_cases htake with
    | typeValue => exact ⟨fun hs => hs rfl, h⟩

theorem Strict.ok {pos : Pos} {w : Word} {ws : List Word} (h : Strict pos (w :: ws)) :
    w.1.ok = true := by
  cases h <;> rfl

theorem Strict.top_of_nil {pos : Pos} (h : Strict pos []) : pos = .top := by
  cases h
  rfl

theorem Strict.exec {signed : Bool} {x y : Stand} {ws ms : List Word}
    (h : Strict x.pos (ws ++ ms)) (hrun : exec (advance signed) x ws = some y) :
    Along (advance signed) (fun y w => ¬ Slip y.pos w.1) x ws ∧ Strict y.pos ms := by
  induction ws generalizing x with
  | nil =>
    obtain rfl : x = y := by simpa [Machine.exec] using hrun
    exact ⟨trivial, h⟩
  | cons w ws ih =>
    obtain ⟨z, hz, hrest⟩ := exec_cons_iff.mp hrun
    obtain ⟨hslip, hstrict⟩ := h.step (advance_iff.mp hz).2
    obtain ⟨halong, hend⟩ := ih hstrict hrest
    exact ⟨(Machine.along_cons_iff hz).mpr ⟨hslip, halong⟩, hend⟩

/-- If the file is written in the grammar, no run to its end slips. -/
theorem trusted_of_writtenAs {signed : Bool} {content buf : List UInt8} {es : List Entry}
    (h : WrittenAs signed content buf es) : Trusted signed content buf := by
  obtain ⟨hfull, s, hread, hblank⟩ := h
  have hstrict : Strict (start content buf).pos (es.flatMap Entry.words) := strict_entries hfull
  intro ws x hrun hends
  rcases exec_comparable (reading_determined signed) (exec_reading hrun) hread with
    ⟨r, hr, hrest⟩ | ⟨r, hr, hrest⟩
  · rw [hr] at hstrict
    obtain ⟨halong, hx⟩ := hstrict.exec hrun
    cases r with
    | nil =>
      obtain rfl : x.scan = s := by simpa [exec] using hrest
      exact ⟨halong, hx.top_of_nil, hblank⟩
    | cons w r =>
      obtain ⟨u, hu, _⟩ := exec_cons_iff.mp hrest
      obtain ⟨tkn, hg, rfl⟩ := reading_iff.mp hu
      rcases hends with hnone | ⟨_, tkn', u', hg', hok⟩
      · rw [hg] at hnone
        cases hnone
      · rw [hg, Option.some.injEq, Prod.mk.injEq] at hg'
        have hok' : tkn.ok = true := hx.ok
        rw [hg'.1, hok] at hok'
        cases hok'
  · subst hr
    obtain ⟨y, hy, hyx⟩ := exec_append_iff.mp hrun
    obtain rfl : y.scan = s := Option.some.inj ((exec_reading hy).symm.trans hread)
    rw [← List.append_nil (es.flatMap Entry.words)] at hstrict
    obtain ⟨halong, hpos⟩ := hstrict.exec hy
    have hstuck : Ends signed y := by
      rcases gettoken_blank hblank with hnone | ⟨u, hu⟩
      · exact .inl hnone
      · exact .inr ⟨hpos.top_of_nil, .errChr, u, hu, rfl⟩
    cases r with
    | nil =>
      obtain rfl : y = x := by simpa [exec] using hyx
      rw [List.append_nil]
      exact ⟨halong, hpos.top_of_nil, hblank⟩
    | cons w r =>
      obtain ⟨z, hz, _⟩ := exec_cons_iff.mp hyx
      rw [hstuck.stuck w] at hz
      cases hz

/-! ## The entries of a run without slips -/

/-- The words read so far, at any place in the file, with what they stored. -/
inductive Held : List Word → Pos → Tables → List UInt8 → Prop where
  | top {es : List Entry} (h : ∀ e ∈ es, e.Full) (buf : List UInt8) :
      Held (es.flatMap Entry.words) .top (.ofEntries es) buf
  | region {es : List Entry} (h : ∀ e ∈ es, e.Full) (buf : List UInt8) :
      Held (es.flatMap Entry.words ++ [bare (.key .region)]) .region (.ofEntries es) buf
  | brace {es : List Entry} (h : ∀ e ∈ es, e.Full) (name : List UInt8) :
      Held (es.flatMap Entry.words ++ [bare (.key .region), quote name]) (.brace true)
        (.ofEntries es) name
  | items {es : List Entry} (h : ∀ e ∈ es, e.Full) (name buf : List UInt8)
      (items : List (Member × List UInt8)) :
      Held (es.flatMap Entry.words ++ ([bare (.key .region), quote name, bare .bgn] ++
        itemsWords items)) (.items (!items.isEmpty)) ((Tables.ofEntries es).setConf (fill name items)) buf
  | itemEqu {es : List Entry} (h : ∀ e ∈ es, e.Full) (name buf : List UInt8)
      (items : List (Member × List UInt8)) (m : Member) :
      Held (es.flatMap Entry.words ++ ([bare (.key .region), quote name, bare .bgn] ++
        itemsWords items) ++ [bare (.key m.key)]) (.equ (some m))
        ((Tables.ofEntries es).setConf (fill name items)) buf
  | itemValue {es : List Entry} (h : ∀ e ∈ es, e.Full) (name buf : List UInt8)
      (items : List (Member × List UInt8)) (m : Member) :
      Held (es.flatMap Entry.words ++ ([bare (.key .region), quote name, bare .bgn] ++
        itemsWords items) ++ [bare (.key m.key), bare .equ]) (.value (some m) true)
        ((Tables.ofEntries es).setConf (fill name items)) buf
  | sync {es : List Entry} (h : ∀ e ∈ es, e.Full) (buf : List UInt8) :
      Held (es.flatMap Entry.words ++ [bare (.key .sync)]) .sync (.ofEntries es) buf
  | types {es : List Entry} (h : ∀ e ∈ es, e.Full) (buf : List UInt8) (types : List (List UInt8)) :
      Held (es.flatMap Entry.words ++ ([bare (.key .sync), bare .bgn] ++ typesWords types))
        (.types (!types.isEmpty)) (types.foldl .addSync (.ofEntries es)) buf
  | typeEqu {es : List Entry} (h : ∀ e ∈ es, e.Full) (buf : List UInt8) (types : List (List UInt8)) :
      Held (es.flatMap Entry.words ++ ([bare (.key .sync), bare .bgn] ++ typesWords types) ++
        [bare (.key .type)]) (.equ none) (types.foldl .addSync (.ofEntries es)) buf
  | typeValue {es : List Entry} (h : ∀ e ∈ es, e.Full) (buf : List UInt8) (types : List (List UInt8)) :
      Held (es.flatMap Entry.words ++ ([bare (.key .sync), bare .bgn] ++ typesWords types) ++
        [bare (.key .type), bare .equ]) (.value none true) (types.foldl .addSync (.ofEntries es)) buf

theorem setConf_setMember (t : Tables) (x : Conf) (s : List UInt8) (m : Member) :
    (t.setConf x).setMember s m = t.setConf (x.set s m) := by
  simp [Tables.setMember, Tables.setConf]

theorem ofEntries_setArea (es : List Entry) (name : List UInt8) :
    (Tables.ofEntries es).setArea name = (Tables.ofEntries es).setConf (fill name []) := by
  simp [Tables.setArea, Tables.setConf, Tables.ofEntries, fill]

theorem ofEntries_region (es : List Entry) (name : List UInt8)
    (items : List (Member × List UInt8)) :
    ((Tables.ofEntries es).setConf (fill name items)).endRegion =
      .ofEntries (es ++ [.region name items]) := by
  have hconf : (es ++ [Entry.region name items]).filterMap Entry.conf =
      es.filterMap Entry.conf ++ [fill name items] := by
    rw [List.filterMap_append]
    rfl
  have htypes : (es ++ [Entry.region name items]).flatMap Entry.types = es.flatMap Entry.types := by
    simp [Entry.types]
  have hupdate := update_snoc id Conf.zero (es.filterMap Entry.conf) (fill name items)
  simp only [id_eq] at hupdate
  simp only [Tables.endRegion, Tables.setConf, Tables.ofEntries, hconf, htypes, hupdate,
    List.length_append, List.length_singleton]

theorem ofEntries_addSync (es : List Entry) (types : List (List UInt8)) (s : List UInt8) :
    (Tables.ofEntries (es ++ [.sync types])).addSync s =
      .ofEntries (es ++ [.sync (types ++ [s])]) := by
  have hconf : ∀ ts, (es ++ [Entry.sync ts]).filterMap Entry.conf = es.filterMap Entry.conf := by
    intro ts
    simp [Entry.conf]
  have htypes : ∀ ts, (es ++ [Entry.sync ts]).flatMap Entry.types =
      es.flatMap Entry.types ++ ts := by
    intro ts
    simp [Entry.types]
  have hsync := update_snoc id [] (es.flatMap Entry.types ++ types) s
  have hlen : (es.flatMap Entry.types ++ types ++ [s]).length =
      (es.flatMap Entry.types ++ types).length + 1 := by
    rw [List.length_append, List.length_singleton]
  simp only [id_eq] at hsync
  simp only [Tables.addSync, Tables.ofEntries, hconf, htypes, ← List.append_assoc, hsync, hlen]

theorem ofEntries_sync (es : List Entry) (types : List (List UInt8)) :
    types.foldl .addSync (.ofEntries es) = Tables.ofEntries (es ++ [.sync types]) := by
  induction types using List.reverseRecOn with
  | nil =>
    have hconf : [Entry.sync []].filterMap Entry.conf = [] := rfl
    simp [Tables.ofEntries, hconf, Entry.types]
  | append_singleton types s ih =>
    rw [List.foldl_append, ih]
    exact ofEntries_addSync es types s

theorem full_snoc {es : List Entry} {e : Entry} (h : ∀ e ∈ es, e.Full) (he : e.Full) :
    ∀ e' ∈ es ++ [e], e'.Full := by
  intro e' he'
  rcases List.mem_append.mp he' with h' | h'
  · exact h e' h'
  · rw [List.mem_singleton.mp h']
    exact he

theorem Key.eq_of_member {k : Key} {m : Member} (h : k.member = some m) : k = m.key := by
  cases k <;> cases h <;> rfl

theorem Held.step {ws : List Word} {pos pos' : Pos} {t t' : Tables} {buf buf' : List UInt8}
    {tkn : Token} (h : Held ws pos t buf) (hslip : ¬ Slip pos tkn)
    (htake : take t buf' pos tkn = some (pos', t')) (hbuf : tkn ≠ .str → buf' = buf) :
    Held (ws ++ [word tkn buf']) pos' t' buf' := by
  cases h with
  | @top es hes =>
    cases take_cases htake with
    | region => exact .region hes buf'
    | sync => exact .sync hes buf'
  | @region es hes =>
    obtain rfl : tkn = .str := not_not.mp hslip
    cases take_cases htake with
    | name =>
      rw [List.append_assoc]
      exact .brace hes buf'
  | @brace es hes =>
    obtain rfl : tkn = .bgn := not_not.mp hslip
    obtain rfl := hbuf nofun
    cases take_cases htake with
    | brace =>
      rw [List.append_assoc, ofEntries_setArea]
      exact .items hes buf' buf' []
  | @items es hes name buf items =>
    cases take_cases htake with
    | item hm =>
      rw [Key.eq_of_member hm]
      exact .itemEqu hes name buf' items _
    | endRegion =>
      have hne : items ≠ [] := by
        rintro rfl
        exact hslip (.inr ⟨rfl, rfl⟩)
      have hwords : es.flatMap Entry.words ++ ([bare (.key .region), quote name, bare .bgn] ++
          itemsWords items) ++ [word .close buf'] =
          (es ++ [Entry.region name items]).flatMap Entry.words := by
        simp [Entry.words, word, bare]
      rw [hwords, ofEntries_region]
      exact .top (@full_snoc _ (.region name items) hes hne) buf'
    | leaveRegion hok => exact absurd (.inl hok) hslip
  | @itemEqu es hes name buf items m =>
    obtain rfl : tkn = .equ := not_not.mp hslip
    cases take_cases htake with
    | equ =>
      rw [List.append_assoc]
      exact .itemValue hes name buf' items m
  | @itemValue es hes name buf items m =>
    obtain rfl : tkn = .str := not_not.mp hslip
    have hwords : es.flatMap Entry.words ++ ([bare (.key .region), quote name, bare .bgn] ++
        itemsWords items) ++ [bare (.key m.key), bare .equ] ++ [word .str buf'] =
        es.flatMap Entry.words ++ ([bare (.key .region), quote name, bare .bgn] ++
          itemsWords (items ++ [(m, buf')])) := by
      simp [itemsWords, itemWords, word, quote]
    have hfill : (fill name items).set buf' m = fill name (items ++ [(m, buf')]) := by
      simp [fill]
    have hany : true = !(items ++ [(m, buf')]).isEmpty := by simp
    cases take_cases htake with
    | value =>
      rw [hwords, setConf_setMember, hfill, hany]
      exact .items hes name buf' (items ++ [(m, buf')])
  | @sync es hes =>
    cases take_cases htake with
    | syncBrace =>
      rw [List.append_assoc]
      exact .types hes buf' []
  | @types es hes buf types =>
    cases take_cases htake with
    | type => exact .typeEqu hes buf' types
    | endSync =>
      have hne : types ≠ [] := by
        rintro rfl
        exact hslip (.inr ⟨rfl, rfl⟩)
      have hwords : es.flatMap Entry.words ++ ([bare (.key .sync), bare .bgn] ++
          typesWords types) ++ [word .close buf'] =
          (es ++ [Entry.sync types]).flatMap Entry.words := by
        simp [Entry.words, word, bare]
      rw [hwords, ofEntries_sync]
      exact .top (@full_snoc _ (.sync types) hes hne) buf'
    | leaveSync hok => exact absurd (.inl hok) hslip
  | @typeEqu es hes buf types =>
    obtain rfl : tkn = .equ := not_not.mp hslip
    cases take_cases htake with
    | equ =>
      rw [List.append_assoc]
      exact .typeValue hes buf' types
  | @typeValue es hes buf types =>
    obtain rfl : tkn = .str := not_not.mp hslip
    have hwords : es.flatMap Entry.words ++ ([bare (.key .sync), bare .bgn] ++
        typesWords types) ++ [bare (.key .type), bare .equ] ++ [word .str buf'] =
        es.flatMap Entry.words ++ ([bare (.key .sync), bare .bgn] ++
          typesWords (types ++ [buf'])) := by
      simp [typesWords, itemWords, word, quote]
    have htables : (types.foldl Tables.addSync (.ofEntries es)).addSync buf' =
        (types ++ [buf']).foldl Tables.addSync (.ofEntries es) := by
      rw [List.foldl_append]
      rfl
    have hany : true = !(types ++ [buf']).isEmpty := by simp
    cases take_cases htake with
    | typeValue =>
      rw [hwords, htables, hany]
      exact .types hes buf' (types ++ [buf'])

section Result
variable {signed : Bool} {content buf : List UInt8}

theorem zero_eq_ofEntries : Tables.zero = .ofEntries [] := by
  simp [Tables.zero, Tables.ofEntries]

/-- A run without slips is the reading of a file in the grammar. -/
theorem writtenAs_of_along {ws : List Word} {x : Stand}
    (hrun : exec (advance signed) (start content buf) ws = some x)
    (halong : Along (advance signed) (fun y w => ¬ Slip y.pos w.1) (start content buf) ws)
    (hpos : x.pos = .top) (hblank : Blank signed x.scan.input) :
    ∃ es, WrittenAs signed content buf es ∧ x.tables = .ofEntries es := by
  have hheld : Along (advance signed) (fun y w => ¬ Slip y.pos w.1) (start content buf) ws →
      Held ws x.pos x.tables x.scan.str := by
    refine Machine.exec_invariant_past
      (I := fun ws x => Along (advance signed) (fun y w => ¬ Slip y.pos w.1) (start content buf) ws →
        Held ws x.pos x.tables x.scan.str) ?_ ?_ hrun
    · intro _
      have htop := @Held.top [] nofun buf
      rw [← zero_eq_ofEntries] at htop
      exact htop
    · intro ms y w z hy ih hz hms
      obtain ⟨hpast, hslip⟩ := (Machine.along_snoc_iff hy).mp hms
      obtain ⟨hread, htake⟩ := advance_iff.mp hz
      obtain ⟨tkn, hg, rfl⟩ := reading_iff.mp hread
      exact (ih hpast).step hslip htake (gettoken_consumes hg).str
  have hend := hheld halong
  rw [hpos] at hend
  generalize htables : x.tables = t at hend
  cases hend with
  | @top es hes =>
    exact ⟨es, ⟨hes, x.scan, exec_reading hrun, hblank⟩, rfl⟩

theorem readconf_sound_iff (signed : Bool) (content buf : List UInt8) :
    Sound signed content buf ↔ Trusted signed content buf := by
  obtain ⟨ms, y, hy, hcases⟩ := (@readconf_fate signed content buf).run
  constructor
  · rintro ⟨hreturn, hreject⟩ ws x hx hends
    rcases hcases with ⟨_, hr⟩ | ⟨hstuck, hno, _⟩
    · have hwritten : ∃ es, WrittenAs signed content buf es := by
        rcases hr with hr | hr
        · obtain ⟨es, hes, _⟩ := hreturn _ hr
          exact ⟨es, hes⟩
        · by_contra hnot
          obtain ⟨f, hf⟩ := hreject hnot
          rw [hr] at hf
          cases hf
      obtain ⟨es, hes⟩ := hwritten
      exact trusted_of_writtenAs hes ws x hx hends
    · obtain ⟨_, rfl⟩ := exec_unique_of_stuck advance_determined hx hy hends.stuck hstuck
      exact absurd hends hno
  · intro htrusted
    rcases hcases with ⟨hends, hr⟩ | ⟨_, _, f, hr⟩
    · obtain ⟨halong, hpos, hblank⟩ := htrusted ms y hy hends
      obtain ⟨es, hes, htables⟩ := writtenAs_of_along hy halong hpos hblank
      refine ⟨?_, fun hno => absurd ⟨es, hes⟩ hno⟩
      intro t ht
      rcases hr with hr | hr
      · rw [hr] at ht
        cases ht
        exact ⟨es, hes, htables⟩
      · rw [hr] at ht
        cases ht
    · refine ⟨?_, fun _ => ⟨f, hr⟩⟩
      intro t ht
      rw [hr] at ht
      cases ht

def signTwice : List UInt8 := ascii "sync\x7btype==\x7d"

/-- The second sign is taken for the string, and what the buffer held is stored. -/
theorem sign_taken_for_string : (∃ t, readconf true (some signTwice) [1] = pure t ∧ t.sent = 1 ∧
    t.synctype 0 = [1]) ∧ ¬ Sound true signTwice [1] := by
  have heval : (Option.any (fun x => x.toOption.any fun t => t.sent = 1 ∧ t.synctype 0 = [1])
      (readconf true (some signTwice) [1])) = true := by decide +kernel
  obtain ⟨t, ht, hstored⟩ := exists_of_any heval
  refine ⟨⟨t, ht, of_decide_eq_true hstored⟩, ?_⟩
  rintro ⟨hsound, _⟩
  obtain ⟨es, ⟨hfull, s, hs, hblank⟩, _⟩ := hsound t ht
  have hrun : (exec (reading true) ⟨signTwice, 1, [1]⟩ [bare (.key .sync), bare .bgn,
      bare (.key .type), bare .equ, bare .equ]).map Scan.input = some (ascii "\x7d") := by
    decide +kernel
  obtain ⟨u, hu, hclose⟩ := Option.map_eq_some_iff.mp hrun
  rcases exec_comparable (reading_determined true) hu hs with ⟨r, hr, _⟩ | ⟨r, hr, hsu⟩
  · have hstrict := strict_entries hfull
    rw [hr] at hstrict
    cases hstrict with | sync h => cases h with | syncBrace h => cases h with | type h =>
      cases h with | equ h => cases h
  · cases r with
    | nil =>
      obtain rfl : s = u := by simpa [exec] using hsu
      rw [hclose] at hblank
      cases hblank with
      | space hc => exact absurd hc (by decide)
    | cons w r =>
      obtain ⟨v, hv, _⟩ := exec_cons_iff.mp hsu
      obtain ⟨tkn, hg, rfl⟩ := reading_iff.mp hv
      have hok : ∀ w ∈ [bare (.key .sync), bare .bgn, bare (.key .type), bare .equ, bare .equ],
          w.1.ok = true := by decide
      have hok' := hok (word tkn v.str) (hr ▸ by simp)
      rcases gettoken_blank hblank with hnone | ⟨_, herr⟩
      · rw [hg] at hnone
        cases hnone
      · rw [hg] at herr
        cases herr
        cases hok'
end Result

end JitDt.Regexplib
