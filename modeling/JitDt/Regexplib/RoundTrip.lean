import JitDt.Regexplib.Layout
import JitDt.Regexplib.Readconf

/-!
# Reading back a printed configuration

A configuration is printed as blocks, each of them in the syntax of the sample file:
regions with the members that are given, in any order, and `sync` blocks that hold the
types between them. `readconf` reads every printed configuration back.
-/

namespace JitDt.Regexplib

set_option autoImplicit false

/-! ## Configurations -/

structure Area where
  name : Ident
  member : Member → Option Text

def Area.conf (a : Area) : Conf where
  c_area := a.name.bytes
  c_pattern := (a.member .pattern).elim [] Text.bytes
  c_type := (a.member .type).elim [] Text.bytes
  c_date := (a.member .date).elim [] Text.bytes
  c_fnam := (a.member .fnam).elim [] Text.bytes
  c_thrh := (a.member .thrh).elim [] Text.bytes

theorem Area.conf_get (a : Area) (m : Member) : a.conf.get m = (a.member m).elim [] Text.bytes := by
  cases m <;> rfl

structure Configuration where
  regions : List Area
  types : List Text
  regions_le : regions.length ≤ maxConf
  types_le : types.length ≤ maxSyncfiles

def Member.key : Member → Key
  | .pattern => .pattern
  | .date => .date
  | .type => .type
  | .fnam => .fname
  | .thrh => .threshold

/-- A region whose given members are set in some order. -/
structure Region extends Area where
  order : List Member
  all : ∀ m, m ∈ order ↔ (member m).isSome

def item (k : Key) (t : Text) : List Lexeme := [.key k, .equ, .text t]

def items (member : Member → Option Text) (order : List Member) : List Lexeme :=
  order.flatMap fun m => (member m).elim [] (item m.key)

inductive Block where
  | region (r : Region)
  | sync (types : List Text)

namespace Block

def lexemes : Block → List Lexeme
  | .region r => .key .region :: .word r.name :: .bgn :: (items r.member r.order ++ [.close])
  | .sync types => .key .sync :: .bgn :: (types.flatMap (item .type) ++ [.close])

def area : Block → Option Area
  | .region r => some r.toArea
  | .sync _ => none

def types : Block → List Text
  | .region _ => []
  | .sync types => types

end Block

/-- `content` is a file with the configuration. -/
def Prints (cfg : Configuration) (content : List UInt8) : Prop :=
  ∃ bs : List Block, bs.filterMap Block.area = cfg.regions ∧ bs.flatMap Block.types = cfg.types ∧
    Printed (bs.flatMap Block.lexemes) content

/-- Every configuration can be printed. -/
theorem exists_prints (cfg : Configuration) : ∃ content, Prints cfg content := by
  have hregion : ∀ a : Area, ∃ r : Region, r.toArea = a := by
    intro a
    refine ⟨⟨a, [Member.pattern, .date, .type, .fnam, .thrh].filter fun m => (a.member m).isSome,
      ?_⟩, rfl⟩
    intro m
    cases m <;> simp
  choose region hregion using hregion
  refine ⟨_, cfg.regions.map (fun a => .region (region a)) ++ [.sync cfg.types], ?_, ?_,
    printed_blanks _⟩
  · rw [List.filterMap_append, List.filterMap_map]
    have harea : (Block.area ∘ fun a => .region (region a)) = some := by
      funext a
      exact congrArg some (hregion a)
    rw [harea, List.filterMap_some]
    simp [Block.area]
  · rw [List.flatMap_append, List.flatMap_map]
    simp [Block.types]

/-! ## The tables of a configuration -/

def Tables.ofLists (areas : List Area) (types : List Text) : Tables where
  conf := fun i => areas[i]?.elim .zero Area.conf
  synctype := fun i => types[i]?.elim [] Text.bytes
  cent := areas.length
  sent := types.length

theorem update_snoc {A B : Type} (f : A → B) (z : B) (l : List A) (a : A) :
    Function.update (fun i => l[i]?.elim z f) l.length (f a) = fun i => (l ++ [a])[i]?.elim z f := by
  funext i
  rcases Nat.lt_trichotomy i l.length with hi | rfl | hi
  · rw [Function.update_of_ne hi.ne, List.getElem?_append_left hi]
  · rw [Function.update_self, List.getElem?_concat_length]
    rfl
  · rw [Function.update_of_ne hi.ne', List.getElem?_eq_none hi.le, List.getElem?_eq_none]
    rw [List.length_append, List.length_singleton]
    exact hi

theorem ofLists_addSync (areas : List Area) (types : List Text) (t : Text) :
    (Tables.ofLists areas types).addSync t.bytes = Tables.ofLists areas (types ++ [t]) := by
  simp only [Tables.addSync, Tables.ofLists, update_snoc, List.length_append, List.length_singleton]

/-- The members are set one after the other. -/
def Conf.setMembers (member : Member → Option Text) (x : Conf) (order : List Member) : Conf :=
  order.foldl (fun x m => (member m).elim x fun t => x.set t.bytes m) x

def Tables.setConf (t : Tables) (x : Conf) : Tables :=
  { t with conf := Function.update t.conf t.cent x }

theorem Conf.setMembers_get (member : Member → Option Text) (x : Conf) (order : List Member) :
    (x.setMembers member order).c_area = x.c_area ∧ ∀ m, (x.setMembers member order).get m =
      if m ∈ order then (member m).elim (x.get m) Text.bytes else x.get m := by
  induction order generalizing x with
  | nil => exact ⟨rfl, fun _ => rfl⟩
  | cons m order ih =>
    unfold Conf.setMembers at ih ⊢
    rw [List.foldl_cons]
    cases hm : member m with
    | none =>
      obtain ⟨harea, hget⟩ := ih x
      refine ⟨harea, ?_⟩
      intro m'
      rw [Option.elim_none, hget]
      by_cases h : m' = m
      · rw [h]
        simp [hm]
      · simp [h]
    | some t =>
      obtain ⟨harea, hget⟩ := ih (x.set t.bytes m)
      refine ⟨harea.trans (Conf.set_area _ _ _), ?_⟩
      intro m'
      rw [Option.elim_some, hget, Conf.get_set]
      by_cases h : m' = m
      · rw [h]
        simp [hm]
      · simp [h]

/-- The members of a region that was empty before. -/
theorem Region.conf_eq (r : Region) :
    ({ Conf.zero with c_area := r.name.bytes } : Conf).setMembers r.member r.order = r.conf := by
  obtain ⟨harea, hget⟩ :=
    Conf.setMembers_get r.member { Conf.zero with c_area := r.name.bytes } r.order
  apply Conf.ext_get
  · exact harea
  · intro m
    have hempty : ({ Conf.zero with c_area := r.name.bytes } : Conf).get m = [] := by
      cases m <;> rfl
    rw [hget, hempty, Area.conf_get]
    split
    · rfl
    · rename_i hm
      rw [r.all, Option.not_isSome_iff_eq_none] at hm
      rw [hm]
      rfl

theorem ofLists_region (areas : List Area) (types : List Text) (r : Region) :
    (((Tables.ofLists areas types).setArea r.name.bytes).setConf r.conf).endRegion =
      Tables.ofLists (areas ++ [r.toArea]) types := by
  simp only [Tables.endRegion, Tables.setConf, Tables.setArea, Tables.ofLists, Function.update_idem,
    update_snoc, List.length_append, List.length_singleton]

/-! ## Reading the blocks -/

section Reading
variable {signed : Bool} {p : Parser} {xs : List Lexeme}

theorem next_printed {x : Lexeme} (h : Printed (x :: xs) p.scan.input) :
    ∃ scan, next signed p = pure (x.token, { p with scan := scan }) ∧ Printed xs scan.input ∧
      scan.str = x.stored p.scan.str := by
  obtain ⟨scan, hscan, hrest⟩ := @gettoken_printed signed _ _ _ h
  refine ⟨scan, ?_, hrest⟩
  unfold next
  rw [hscan]

theorem parse_keystring_printed {t : Text} (m : Member)
    (h : Printed (.equ :: .text t :: xs) p.scan.input) :
    ∃ scan, parse_keystring signed m p = pure ⟨scan, p.tables.setMember t.bytes m⟩ ∧
      Printed xs scan.input := by
  obtain ⟨scan, hnext, hrest, _⟩ := @next_printed signed p _ _ h
  obtain ⟨scan', hnext', hrest', hstr⟩ := @next_printed signed { p with scan := scan } _ _ hrest
  refine ⟨scan', ?_, hrest'⟩
  unfold parse_keystring
  rw [hnext, pure_bind]
  simp only [hnext', pure_bind]
  rw [if_neg (by simp [Lexeme.token]), hstr]
  rfl

theorem syncItem_printed {t : Text} (h : Printed (.equ :: .text t :: xs) p.scan.input)
    (hroom : p.tables.sent < maxSyncfiles) :
    ∃ scan, syncItem signed p = pure ⟨scan, p.tables.addSync t.bytes⟩ ∧ Printed xs scan.input := by
  obtain ⟨scan, hnext, hrest, _⟩ := @next_printed signed p _ _ h
  obtain ⟨scan', hnext', hrest', hstr⟩ := @next_printed signed { p with scan := scan } _ _ hrest
  refine ⟨scan', ?_, hrest'⟩
  unfold syncItem
  rw [hnext, pure_bind]
  simp only [hnext', pure_bind]
  rw [if_neg (by simp [Lexeme.token]), if_neg (Nat.not_le.mpr hroom), hstr]
  rfl

/-- The keyword of an item leads to its member. -/
theorem regionItems_key (m : Member) {scan : Scan} (k : Nat)
    (h : next signed p = pure (.key m.key, { p with scan := scan })) :
    regionItems signed (k + 1) p =
      parse_keystring signed m { p with scan := scan } >>= regionItems signed k := by
  unfold regionItems
  rw [h, pure_bind]
  cases m <;> rfl

theorem regionItems_printed {member : Member → Option Text} {order : List Member} {k : Nat}
    (hk : order.length ≤ k) (h : Printed (items member order ++ .close :: xs) p.scan.input) :
    ∃ scan, regionItems signed (k + 1) p = pure ⟨scan, (p.tables.setConf
        ((p.tables.conf p.tables.cent).setMembers member order)).endRegion⟩ ∧
      Printed xs scan.input := by
  induction order generalizing k p with
  | nil =>
    obtain ⟨scan, hnext, hrest, _⟩ := @next_printed signed p _ _ h
    refine ⟨scan, ?_, hrest⟩
    unfold regionItems
    rw [hnext, pure_bind]
    simp only [Conf.setMembers, List.foldl_nil, Tables.setConf, Function.update_eq_self]
    rfl
  | cons m order ih =>
    have hcons : items member (m :: order) =
        (member m).elim [] (item m.key) ++ items member order := rfl
    rw [hcons] at h
    unfold Conf.setMembers
    rw [List.foldl_cons]
    cases hm : member m with
    | none =>
      rw [hm] at h
      exact ih (by simp at hk; omega) h
    | some t =>
      rw [hm] at h
      obtain ⟨scan, hnext, hrest, _⟩ := @next_printed signed p _ _ h
      obtain ⟨scan', hitem, hrest'⟩ :=
        @parse_keystring_printed signed { p with scan := scan } _ t m hrest
      cases k with
      | zero => simp at hk
      | succ k =>
        obtain ⟨scan'', hloop, hend⟩ := @ih ⟨scan', p.tables.setMember t.bytes m⟩ k
          (by simpa using hk) hrest'
        refine ⟨scan'', ?_, hend⟩
        rw [regionItems_key m _ hnext, hitem, pure_bind, hloop]
        simp [Tables.setMember, Tables.setConf, Conf.setMembers]

theorem syncItems_printed {areas : List Area} {types us : List Text} {k : Nat}
    (hk : us.length ≤ k) (hroom : (types ++ us).length ≤ maxSyncfiles)
    (htables : p.tables = Tables.ofLists areas types)
    (h : Printed (us.flatMap (item .type) ++ .close :: xs) p.scan.input) :
    ∃ scan, syncItems signed (k + 1) p = pure ⟨scan, Tables.ofLists areas (types ++ us)⟩ ∧
      Printed xs scan.input := by
  induction us generalizing k p types with
  | nil =>
    obtain ⟨scan, hnext, hrest, _⟩ := @next_printed signed p _ _ h
    refine ⟨scan, ?_, hrest⟩
    unfold syncItems
    rw [hnext, pure_bind, List.append_nil, ← htables]
    rfl
  | cons t us ih =>
    obtain ⟨scan, hnext, hrest, _⟩ := @next_printed signed p _ _ h
    have hsent : p.tables.sent < maxSyncfiles := by
      rw [htables]
      simp [Tables.ofLists] at hroom ⊢
      omega
    obtain ⟨scan', hitem, hrest'⟩ :=
      @syncItem_printed signed { p with scan := scan } _ t hrest hsent
    cases k with
    | zero => simp at hk
    | succ k =>
      have hadd : p.tables.addSync t.bytes = Tables.ofLists areas (types ++ [t]) := by
        rw [htables, ofLists_addSync]
      obtain ⟨scan'', hloop, hend⟩ := @ih ⟨scan', p.tables.addSync t.bytes⟩ (types ++ [t]) k
        (by simpa using hk) (by simpa using hroom) hadd hrest'
      refine ⟨scan'', ?_, hend⟩
      unfold syncItems
      rw [hnext, pure_bind, List.append_cons]
      exact bind_of_eq hitem hloop

theorem regionBlock_printed {r : Region} {areas : List Area} {types : List Text} {k : Nat}
    (hk : r.order.length ≤ k) (hroom : areas.length < maxConf)
    (htables : p.tables = Tables.ofLists areas types)
    (h : Printed (.word r.name :: .bgn :: (items r.member r.order ++ .close :: xs)) p.scan.input) :
    ∃ scan, regionBlock signed (k + 1) p =
        pure ⟨scan, Tables.ofLists (areas ++ [r.toArea]) types⟩ ∧ Printed xs scan.input := by
  obtain ⟨scan, hnext, hrest, hstr⟩ := @next_printed signed p _ _ h
  obtain ⟨scan', hnext', hrest', hstr'⟩ := @next_printed signed { p with scan := scan } _ _ hrest
  have hname : scan'.str = r.name.bytes := hstr'.trans hstr
  obtain ⟨scan'', hitems, hend⟩ :=
    @regionItems_printed signed ⟨scan', p.tables.setArea scan'.str⟩ _ _ _ _ hk hrest'
  refine ⟨scan'', ?_, hend⟩
  have hempty : (p.tables.setArea scan'.str).conf p.tables.cent =
      { Conf.zero with c_area := r.name.bytes } := by
    rw [hname, htables]
    simp [Tables.setArea, Tables.ofLists]
  have hcent : (p.tables.setArea scan'.str).cent = p.tables.cent := rfl
  rw [hcent, hempty, Region.conf_eq, hname, htables, ofLists_region] at hitems
  unfold regionBlock
  rw [if_neg (by rw [htables]; exact Nat.not_le.mpr hroom), hnext, pure_bind]
  simp only [hnext', pure_bind]
  rw [if_neg (by simp [Lexeme.token]), hname, htables]
  exact hitems

theorem syncBlock_printed {areas : List Area} {types us : List Text} {k : Nat}
    (hk : us.length ≤ k) (hroom : (types ++ us).length ≤ maxSyncfiles)
    (htables : p.tables = Tables.ofLists areas types)
    (h : Printed (.bgn :: (us.flatMap (item .type) ++ .close :: xs)) p.scan.input) :
    ∃ scan, syncBlock signed (k + 1) p = pure ⟨scan, Tables.ofLists areas (types ++ us)⟩ ∧
      Printed xs scan.input := by
  obtain ⟨scan, hnext, hrest, _⟩ := @next_printed signed p _ _ h
  obtain ⟨scan', hitems, hend⟩ :=
    @syncItems_printed signed { p with scan := scan } _ _ _ _ _ hk hroom htables hrest
  refine ⟨scan', ?_, hend⟩
  unfold syncBlock
  rw [hnext, pure_bind]
  exact hitems

/-- How many items the block has. -/
def Block.size : Block → Nat
  | .region r => r.order.length
  | .sync types => types.length

/-- A block is read and stored, and the others are left. -/
theorem block_printed (b : Block) {areas : List Area} {types : List Text} {n : Nat} (k : Nat)
    (hsize : b.size ≤ n) (hareas : (areas ++ b.area.toList).length ≤ maxConf)
    (htypes : (types ++ b.types).length ≤ maxSyncfiles)
    (htables : p.tables = Tables.ofLists areas types) (h : Printed (b.lexemes ++ xs) p.scan.input) :
    ∃ scan, blocks signed (n + 1) (k + 1) p = blocks signed (n + 1) k
        ⟨scan, Tables.ofLists (areas ++ b.area.toList) (types ++ b.types)⟩ ∧
      Printed xs scan.input := by
  cases b with
  | region r =>
    simp only [Block.lexemes, List.cons_append, List.append_assoc, List.nil_append] at h
    obtain ⟨scan, hnext, hrest, _⟩ := @next_printed signed p _ _ h
    have hroom : areas.length < maxConf := by
      rw [List.length_append] at hareas
      exact hareas
    obtain ⟨scan', hblock, hend⟩ :=
      @regionBlock_printed signed { p with scan := scan } _ _ _ _ _ hsize hroom htables hrest
    refine ⟨scan', ?_, hend⟩
    conv_lhs => unfold blocks
    rw [hnext, pure_bind]
    apply bind_of_eq hblock
    simp [Block.area, Block.types]
  | sync us =>
    simp only [Block.lexemes, List.cons_append, List.append_assoc, List.nil_append] at h
    obtain ⟨scan, hnext, hrest, _⟩ := @next_printed signed p _ _ h
    obtain ⟨scan', hblock, hend⟩ :=
      @syncBlock_printed signed { p with scan := scan } _ _ _ _ _ hsize htypes htables hrest
    refine ⟨scan', ?_, hend⟩
    conv_lhs => unfold blocks
    rw [hnext, pure_bind]
    apply bind_of_eq hblock
    simp [Block.area, Block.types]

theorem blocks_printed {bs : List Block} {areas : List Area} {types : List Text} {n k : Nat}
    (hk : bs.length ≤ k) (hsize : ∀ b ∈ bs, b.size ≤ n)
    (hareas : (areas ++ bs.filterMap Block.area).length ≤ maxConf)
    (htypes : (types ++ bs.flatMap Block.types).length ≤ maxSyncfiles)
    (htables : p.tables = Tables.ofLists areas types)
    (h : Printed (bs.flatMap Block.lexemes) p.scan.input) :
    ∃ scan, blocks signed (n + 1) (k + 1) p = pure ⟨scan, Tables.ofLists
      (areas ++ bs.filterMap Block.area) (types ++ bs.flatMap Block.types)⟩ := by
  induction bs generalizing k p areas types with
  | nil =>
    obtain ⟨scan, hscan⟩ := @gettoken_done signed _ h
    refine ⟨scan, ?_⟩
    unfold blocks next
    rw [hscan]
    simp only [List.filterMap_nil, List.flatMap_nil, List.append_nil, ← htables]
    rfl
  | cons b bs ih =>
    cases k with
    | zero => simp at hk
    | succ k =>
      have harea : (b :: bs).filterMap Block.area = b.area.toList ++ bs.filterMap Block.area := by
        cases hb : b.area <;> simp [hb]
      rw [harea, ← List.append_assoc] at hareas ⊢
      rw [List.flatMap_cons, ← List.append_assoc] at htypes ⊢
      rw [List.flatMap_cons] at h
      have hroom := hareas
      have hroom' := htypes
      rw [List.length_append] at hroom hroom'
      obtain ⟨scan, hblock, hrest⟩ := @block_printed signed p _ b _ _ _ (k + 1)
        (hsize b List.mem_cons_self) (by omega) (by omega) htables h
      obtain ⟨scan', hloop⟩ := @ih ⟨scan, Tables.ofLists (areas ++ b.area.toList) (types ++ b.types)⟩
        _ _ k (by simpa using hk) (fun c hc => hsize c (List.mem_cons_of_mem _ hc)) hareas htypes rfl
        hrest
      exact ⟨scan', hblock.trans hloop⟩

end Reading

/-! ## The file is long enough -/

theorem Lexeme.bytes_pos (x : Lexeme) : 0 < x.bytes.length := by
  cases x with
  | key k =>
    obtain ⟨c, hc, _⟩ := k.isName.1
    exact List.length_pos_of_mem (List.mem_of_mem_head? hc)
  | word n =>
    obtain ⟨c, hc, _⟩ := n.start
    exact List.length_pos_of_mem (List.mem_of_mem_head? hc)
  | text t => exact Nat.succ_pos _
  | bgn => exact Nat.succ_pos _
  | close => exact Nat.succ_pos _
  | equ => exact Nat.succ_pos _

theorem Printed.length_le {xs : List Lexeme} {r : List UInt8} (h : Printed xs r) :
    xs.length ≤ r.length := by
  induction h with
  | done => exact Nat.zero_le _
  | @cons x _ _ _ _ _ _ ih =>
    have := x.bytes_pos
    simp only [List.length_cons, List.length_append]
    omega

theorem Block.size_le (b : Block) : b.size ≤ b.lexemes.length := by
  cases b with
  | region r =>
    have hitems : ∀ order : List Member, (∀ m ∈ order, (r.member m).isSome) →
        order.length ≤ (items r.member order).length := by
      intro order horder
      induction order with
      | nil => exact Nat.zero_le _
      | cons m order ih =>
        obtain ⟨t, ht⟩ := Option.isSome_iff_exists.mp (horder m List.mem_cons_self)
        have hrest := ih fun m hm => horder m (List.mem_cons_of_mem _ hm)
        unfold items at hrest ⊢
        rw [List.flatMap_cons, ht, List.length_append]
        simp only [Option.elim_some, item, List.length_cons, List.length_nil]
        omega
    have := hitems r.order fun m hm => (r.all m).mp hm
    simp only [Block.size, Block.lexemes, List.length_cons, List.length_append]
    omega
  | sync types =>
    have hitems : types.length ≤ (types.flatMap (item .type)).length := by
      induction types with
      | nil => exact Nat.zero_le _
      | cons t types ih =>
        rw [List.flatMap_cons, List.length_append]
        simp only [item, List.length_cons, List.length_nil] at ih ⊢
        omega
    simp only [Block.size, Block.lexemes, List.length_cons, List.length_append]
    omega

theorem size_le_flatMap {bs : List Block} {b : Block} (hb : b ∈ bs) :
    b.size ≤ (bs.flatMap Block.lexemes).length := by
  induction bs with
  | nil => cases hb
  | cons c bs ih =>
    rw [List.flatMap_cons, List.length_append]
    rcases List.mem_cons.mp hb with rfl | hb
    · have := b.size_le
      omega
    · have := ih hb
      omega

theorem length_le_flatMap (bs : List Block) : bs.length ≤ (bs.flatMap Block.lexemes).length := by
  induction bs with
  | nil => exact Nat.zero_le _
  | cons b bs ih =>
    have hpos : 0 < b.lexemes.length := by
      cases b <;> exact Nat.succ_pos _
    rw [List.flatMap_cons, List.length_append, List.length_cons]
    omega

/-- `readconf` reads a printed configuration back, whatever its layout, the sign of `char`
and the content of the buffer. -/
theorem readconf_round_trip (signed : Bool) (cfg : Configuration) (content buf : List UInt8)
    (h : Prints cfg content) : ∃ t, readconf signed (some content) buf = pure t ∧
      t.cent = cfg.regions.length ∧ t.sent = cfg.types.length ∧
      (∀ i (hi : i < cfg.regions.length), t.conf i = (cfg.regions.get ⟨i, hi⟩).conf) ∧
      ∀ i (hi : i < cfg.types.length), t.synctype i = (cfg.types.get ⟨i, hi⟩).bytes := by
  obtain ⟨bs, hregions, htypes, hprinted⟩ := h
  have hlen := hprinted.length_le
  have hfit : ∀ b ∈ bs, b.size ≤ content.length := fun b hb => (size_le_flatMap hb).trans hlen
  obtain ⟨scan, hblocks⟩ := @blocks_printed signed ⟨⟨content, 1, buf⟩, .zero⟩ bs [] []
    content.length content.length ((length_le_flatMap bs).trans hlen) hfit
    (by rw [List.nil_append, hregions]; exact cfg.regions_le)
    (by rw [List.nil_append, htypes]; exact cfg.types_le) rfl hprinted
  rw [List.nil_append, List.nil_append, hregions, htypes] at hblocks
  refine ⟨Tables.ofLists cfg.regions cfg.types, ?_, rfl, rfl, ?_, ?_⟩
  · unfold readconf
    simp only [hblocks, pure_bind]
  · intro i hi
    simp [Tables.ofLists, hi]
  · intro i hi
    simp [Tables.ofLists, hi]

/-! ## A small file -/

def kobe : Ident where
  bytes := ascii "kobe"
  start := ⟨_, rfl, rfl⟩
  chars := List.all_eq_true.mp rfl
  short := by decide
  free := rfl

def kobeType : Text where
  bytes := ascii "\\(.*\\)"
  printable := List.all_eq_true.mp rfl
  unquoted := by decide
  short := by decide

def smallRegion : Region where
  name := kobe
  member := fun m => if m = .type then some kobeType else none
  order := [.type]
  all := by
    intro m
    cases m <;> decide

def smallConfiguration : Configuration :=
  ⟨[smallRegion.toArea], [kobeType], by decide, by decide⟩

def smallFile : List UInt8 :=
  ascii "region kobe\x7b#area\ntype=\"\\\\(.*\\\\)\";\x7dsync\x7btype=\"\\\\(.*\\\\)\"\x7d"

set_option maxRecDepth 2048 in
theorem smallFile_printed : Prints smallConfiguration smallFile := by
  have hblank : Gap (ascii " ") := .blank rfl .nil
  have hdelim : Gap (ascii ";") := .delim .nil
  have hcomment : Gap (ascii "#area\n") := @Gap.comment (ascii "area") _ (by decide) .nil
  have hbreak : ∀ {x : Lexeme} {c : UInt8} {s : List UInt8}, isWord c = false → x.Wordlike →
      Breaks (c :: s) := fun hc _ => ⟨_, rfl, hc⟩
  refine ⟨[.region smallRegion, .sync [kobeType]], rfl, rfl, ?_⟩
  refine .cons .nil (hbreak rfl) ?_
  refine .cons hblank (hbreak rfl) ?_
  refine .cons .nil nofun ?_
  refine .cons hcomment (hbreak rfl) ?_
  refine .cons .nil nofun ?_
  refine .cons .nil nofun ?_
  refine .cons hdelim nofun ?_
  refine .cons .nil (hbreak rfl) ?_
  refine .cons .nil nofun ?_
  refine .cons .nil (hbreak rfl) ?_
  refine .cons .nil nofun ?_
  refine .cons .nil nofun ?_
  refine .cons .nil nofun ?_
  exact .done .nil

theorem readconf_round_trip_small : ∃ t, readconf true (some smallFile) [] = pure t ∧
    t.cent = 1 ∧ t.sent = 1 ∧ t.conf 0 = { Conf.zero with
      c_area := ascii "kobe", c_type := ascii "\\(.*\\)" } ∧ t.synctype 0 = ascii "\\(.*\\)" := by
  obtain ⟨t, hread, hcent, hsent, hconf, hsync⟩ :=
    readconf_round_trip true smallConfiguration smallFile [] smallFile_printed
  exact ⟨t, hread, hcent, hsent, hconf 0 (by decide), hsync 0 (by decide)⟩

end JitDt.Regexplib
