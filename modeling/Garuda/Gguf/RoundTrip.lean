import Garuda.Gguf.HeaderOnly

/-!
# Parsing inverts serialisation

The layout of a document as bytes, and that parsing it gives the document back.

* `Layout depth typeId v bs` says that `bs` is the value `v` of type `typeId`, inside `depth`
  arrays; an empty array may name any element type.
* `Document.Layout` is the layout of a whole header.

`parse_layout` reads the header back, whatever data follows it.
-/

namespace Garuda

open Infra

namespace Gguf

/-! ## Layouts -/

/-- A string: its length, then its UTF-8. -/
def stringLayout (s : String) : Bytes := toLE 8 (utf8 s.toList).length ++ utf8 s.toList

/-- A metadata value of a type, `depth` arrays deep, as bytes. -/
inductive Layout : Nat → UInt32 → Value → Bytes → Prop
  | u8 {d : Nat} (v : UInt8) : Layout d 0 (.u8 v) [v]
  | i8 {d : Nat} (v : Int8) : Layout d 1 (.i8 v) [v.toUInt8]
  | u16 {d : Nat} (v : UInt16) : Layout d 2 (.u16 v) (toLE 2 v.toNat)
  | i16 {d : Nat} (v : Int16) : Layout d 3 (.i16 v) (toLE 2 v.toUInt16.toNat)
  | u32 {d : Nat} (v : UInt32) : Layout d 4 (.u32 v) (toLE 4 v.toNat)
  | i32 {d : Nat} (v : Int32) : Layout d 5 (.i32 v) (toLE 4 v.toUInt32.toNat)
  | f32 {d : Nat} (v : F32) : Layout d 6 (.f32 v) (toLE 4 v.bits.toNat)
  | bool {d : Nat} (v : Bool) : Layout d 7 (.bool v) [if v then 1 else 0]
  | string {d : Nat} (s : String) : Layout d 8 (.string s) (stringLayout s)
  /-- Elements of one type, each within the depth limit. -/
  | array {d : Nat} {elemType : UInt32} {items : List Value} {bss : List Bytes}
    (hdepth : items = [] ∨ d + 1 ≤ 8) (hlen : items.length = bss.length)
    (h : ∀ v bs, (v, bs) ∈ items.zip bss → Layout (d + 1) elemType v bs) :
    Layout d 9 (.array items) (toLE 4 elemType.toNat ++ (toLE 8 items.length ++ bss.flatten))
  | u64 {d : Nat} (v : UInt64) : Layout d 10 (.u64 v) (toLE 8 v.toNat)
  | i64 {d : Nat} (v : Int64) : Layout d 11 (.i64 v) (toLE 8 v.toUInt64.toNat)
  | f64 {d : Nat} (v : F64) : Layout d 12 (.f64 v) (toLE 8 v.bits.toNat)

/-- A metadata entry: its key, the type of its value, its value. -/
def EntryLayout (kv : String × Value) (bs : Bytes) : Prop :=
  ∃ typeId vs, Layout 0 typeId kv.2 vs ∧
    bs = stringLayout kv.1 ++ (toLE 4 typeId.toNat ++ vs)

def tensorLayout (t : TensorInfo) : Bytes :=
  stringLayout t.name ++ (toLE 4 t.dims.length ++
    ((t.dims.map fun d => toLE 8 d.toNat).flatten ++
      (toLE 4 t.ggmlType.toNat ++ toLE 8 t.offset.toNat)))

/-- A header as its writer sees it. -/
structure Document where
  version : UInt32
  metadata : List (String × Value)
  tensors : List TensorInfo

namespace Document

def alignment (doc : Document) : Nat :=
  (((doc.metadata.lookup "general.alignment").bind Value.asU64).getD 32).toNat

structure WellFormed (doc : Document) : Prop where
  version : doc.version = 2 ∨ doc.version = 3
  keys : (doc.metadata.map Prod.fst).Nodup
  dims : ∀ t ∈ doc.tensors, t.dims.length ≤ 4
  alignment : ∃ k, doc.alignment = 2 ^ k

/-- The document laid out as bytes. -/
inductive Layout (doc : Document) : Bytes → Prop
  | mk {entries : List Bytes} (h : List.Forall₂ EntryLayout doc.metadata entries) :
    Layout doc (magic ++ (toLE 4 doc.version.toNat ++ (toLE 8 doc.tensors.length ++
      (toLE 8 doc.metadata.length ++ (entries.flatten ++
        (doc.tensors.map tensorLayout).flatten)))))

end Document

/-! ## The cursor's reads -/

theorem parses_take (bs : Bytes) (start : Nat) : Parses (take bs.length) start bs bs := by
  intro pre post hpre hlen
  have hend : start + bs.length ≤ (pre ++ bs ++ post).length := by
    simp only [List.length_append]
    omega
  rw [take, if_neg (by show ¬ 2 ^ 64 ≤ start + bs.length; omega), if_pos hend]
  subst hpre
  simp

theorem parses_word {w n : Nat} (h : n < 256 ^ w) (start : Nat) :
    Parses (word w) start (toLE w n) n := by
  have htake := parses_take (toLE w n) start
  rw [length_toLE] at htake
  refine htake.answers ?_
  rw [if_pos (length_toLE w n), ofLE_toLE h]

theorem parses_readU8 (v : UInt8) (start : Nat) : Parses readU8 start [v] v :=
  (parses_take [v] start).answers rfl

theorem parses_readU16 (v : UInt16) (start : Nat) : Parses readU16 start (toLE 2 v.toNat) v := by
  refine (parses_word v.toNat_lt start).answers ?_
  rw [UInt16.ofNat_toNat]

theorem parses_readU32 (v : UInt32) (start : Nat) : Parses readU32 start (toLE 4 v.toNat) v := by
  refine (parses_word v.toNat_lt start).answers ?_
  rw [UInt32.ofNat_toNat]

theorem parses_readU64 (v : UInt64) (start : Nat) : Parses readU64 start (toLE 8 v.toNat) v := by
  refine (parses_word v.toNat_lt start).answers ?_
  rw [UInt64.ofNat_toNat]

/-- A count that fits is read as itself. -/
theorem parses_count {n : Nat} (h : n < 2 ^ 63) (start : Nat) :
    ∃ v : UInt64, v.toNat = n ∧ Parses readU64 start (toLE 8 n) v := by
  have hv : (UInt64.ofNat n).toNat = n :=
    UInt64.toNat_ofNat_of_lt' (by show n < 2 ^ 64; omega)
  refine ⟨UInt64.ofNat n, hv, ?_⟩
  have := parses_readU64 (UInt64.ofNat n) start
  rwa [hv] at this

theorem parses_stringBytes (s : String) (start : Nat) :
    Parses (stringBytes (utf8 s.toList).length) start (utf8 s.toList) s := by
  refine (parses_take (utf8 s.toList) start).answers ?_
  simp only [fromUtf8_utf8, String.ofList_toList]

theorem parses_string (s : String) (start : Nat) : Parses string start (stringLayout s) s := by
  refine Parses.of_length fun hlen => ?_
  rw [stringLayout, List.length_append] at hlen
  obtain ⟨v, hv, hread⟩ := parses_count (n := (utf8 s.toList).length) (by omega) start
  refine hread.bind ?_
  rw [hv]
  exact (parses_stringBytes s _).guard (exact_stringBytes _) left_of_min
    (P := fun r => r < (utf8 s.toList).length) (fun r hr => by omega) _

/-! ## Values -/

theorem length_le_flatten {α : Type} {R : α → Bytes → Prop} (hR : ∀ a bs, R a bs → 1 ≤ bs.length)
    {l : List α} {bss : List Bytes} (h : List.Forall₂ R l bss) : l.length ≤ bss.flatten.length := by
  induction h with
  | nil => exact Nat.le_refl 0
  | cons ha _ ih =>
    have := hR _ _ ha
    rw [List.length_cons, List.flatten_cons, List.length_append]
    omega

theorem Layout.length_pos {d : Nat} {typeId : UInt32} {v : Value} {bs : Bytes}
    (h : Layout d typeId v bs) : 1 ≤ bs.length := by
  cases h <;> simp [stringLayout] <;> omega

theorem parses_array {n : Nat} {elemType : UInt32} {p : Parse GarudaError Value}
    (hx : Exact p (minValueBytes elemType)) {items : List Value} {bss : List Bytes}
    (hn : n = items.length)
    (hp : List.Forall₂ (fun v bs => ∀ start, Parses p start bs v) items bss) (start : Nat)
    (e : Cursor → GarudaError) :
    Parses (Parse.cursor >>= fun c => Parse.lift (.ok (c.buf.length - c.pos)) >>= fun remaining =>
      Parse.lift (usizeDiv remaining (max (minValueBytes elemType) 1)) >>= fun most =>
        if most < n then Parse.fail (e c)
        else Parse.times n p >>= fun items => pure (Value.array items)) start bss.flatten
      (.array items) := by
  subst hn
  simp only [usizeDiv_min]
  have hpos := minValueBytes_pos elemType
  refine (Parses.times hp start).map.guard ((hx.times items.length).map Value.array)
    (fun c _ => rfl) (P := fun r => r / minValueBytes elemType < items.length) (fun r hr => ?_)
    (fun c _ => e c)
  rw [Nat.not_lt, Nat.le_div_iff_mul_le hpos]
  exact hr

theorem parses_value {d : Nat} {typeId : UInt32} {v : Value} {bs : Bytes} (hd : d ≤ 8)
    (h : Layout d typeId v bs) (start : Nat) : Parses (value typeId d) start bs v := by
  rw [value.eq_def, dif_neg (by omega)]
  induction h generalizing start with
  | u8 v => exact (parses_readU8 v start).map
  | i8 v => exact (parses_readU8 v.toUInt8 start).answers rfl
  | u16 v => exact (parses_readU16 v start).map
  | i16 v => exact (parses_readU16 v.toUInt16 start).answers rfl
  | u32 v => exact (parses_readU32 v start).map
  | i32 v => exact (parses_readU32 v.toUInt32 start).answers rfl
  | f32 v => exact (parses_readU32 v.bits start).answers rfl
  | bool v => cases v <;> exact (parses_readU8 _ start).answers rfl
  | string s => exact (parses_string s start).map
  | @array d elemType items bss hdepth hlen h ih =>
    refine Parses.of_length fun hlong => (parses_readU32 elemType start).bind ?_
    have hcount : items.length ≤ bss.flatten.length :=
      length_le_flatten (fun _ _ hv => Layout.length_pos hv) (List.forall₂_iff_zip.mpr ⟨hlen, h _ _⟩)
    simp only [List.length_append] at hlong
    obtain ⟨n, hn, hread⟩ := parses_count (n := items.length) (by omega) _
    refine hread.bind (parses_array (exact_value elemType (d + 1)) hn ?_ _ _)
    rcases hdepth with rfl | hdepth
    · rw [List.length_nil, eq_comm, List.length_eq_zero_iff] at hlen
      subst hlen
      exact .nil
    · refine List.forall₂_iff_zip.mpr ⟨hlen, fun hmem start => ?_⟩
      show Parses (value elemType (d + 1)) start _ _
      rw [value.eq_def, dif_neg (by omega)]
      exact ih _ _ hmem hdepth start
  | u64 v => exact (parses_readU64 v start).map
  | i64 v => exact (parses_readU64 v.toUInt64 start).answers rfl
  | f64 v => exact (parses_readU64 v.bits start).answers rfl

/-! ## The document -/

theorem parses_entry {kv : String × Value} {bs : Bytes} (h : EntryLayout kv bs) (start : Nat) :
    Parses entry start bs kv := by
  obtain ⟨typeId, vs, hv, rfl⟩ := h
  refine (parses_string kv.1 start).bind ((parses_readU32 typeId _).bind ?_)
  exact (parses_value (Nat.zero_le 8) hv _).answers rfl

theorem parses_tensorInfo {t : TensorInfo} (hdims : t.dims.length ≤ 4) (start : Nat) :
    Parses tensorInfo start (tensorLayout t) t := by
  have hn : (UInt32.ofNat t.dims.length).toNat = t.dims.length :=
    UInt32.toNat_ofNat_of_lt' (by show t.dims.length < 2 ^ 32; omega)
  have hcount := parses_readU32 (UInt32.ofNat t.dims.length)
  rw [hn] at hcount
  refine (parses_string t.name start).bind ((hcount _).bind ?_)
  rw [if_neg (by omega), hn]
  refine (Parses.times ?_ _).bind
    ((parses_readU32 t.ggmlType _).bind (parses_readU64 t.offset _).map)
  exact List.forall₂_map_right_iff.mpr (List.forall₂_same.mpr fun d _ => parses_readU64 d)

theorem length_tensorLayout (t : TensorInfo) : 1 ≤ (tensorLayout t).length := by
  simp [tensorLayout, stringLayout]
  omega

theorem length_entry {kv : String × Value} {bs : Bytes} (h : EntryLayout kv bs) :
    1 ≤ bs.length := by
  obtain ⟨typeId, vs, -, rfl⟩ := h
  simp [stringLayout]
  omega

/-- The map of distinct entries answers as the list of them. -/
theorem getElem?_foldl_insert {l : List (String × Value)} (hl : (l.map Prod.fst).Nodup)
    (m : Metadata) (k : String) :
    (l.foldl (fun m (k, v) => m.insert k v) m)[k]? = (l.lookup k).or m[k]? := by
  induction l generalizing m with
  | nil => rfl
  | cons kv l ih =>
    obtain ⟨k', v'⟩ := kv
    rw [List.map_cons, List.nodup_cons] at hl
    rw [List.foldl_cons, ih hl.2, List.lookup_cons]
    simp only
    rw [Std.ExtTreeMap.getElem?_insert]
    by_cases hk : k = k'
    · subst hk
      have hnone : l.lookup k = none := by
        rw [List.lookup_eq_none_iff]
        intro p hp
        have hne : k ≠ p.1 := by
          rintro rfl
          exact hl.1 (List.mem_map.mpr ⟨p, hp, rfl⟩)
        simpa using hne
      simp [hnone]
    · have hcmp : compare k' k ≠ .eq := fun h => hk (Std.LawfulEqCmp.eq_of_compare h).symm
      have hbeq : (k == k') = false := beq_false_of_ne hk
      simp [hbeq, hcmp]

theorem lookup_eq_some_iff_mem {l : List (String × Value)} (hl : (l.map Prod.fst).Nodup)
    {k : String} {v : Value} : l.lookup k = some v ↔ (k, v) ∈ l := by
  induction l with
  | nil => simp
  | cons kv l ih =>
    obtain ⟨k', v'⟩ := kv
    rw [List.map_cons, List.nodup_cons] at hl
    rw [List.lookup_cons, List.mem_cons]
    by_cases hk : k = k'
    · subst hk
      have hnot : (k, v) ∉ l := by
        intro h
        exact hl.1 (List.mem_map.mpr ⟨(k, v), h, rfl⟩)
      simp [hnot, eq_comm]
    · have hbeq : (k == k') = false := beq_false_of_ne hk
      simp [hbeq, hk, ih hl.2]

/-- The smallest multiple at or after `n`. -/
theorem nextMultiple_least {n a : Nat} (ha : 0 < a) :
    a ∣ (n + a - 1) / a * a ∧ n ≤ (n + a - 1) / a * a ∧
      ∀ r, a ∣ r → n ≤ r → (n + a - 1) / a * a ≤ r := by
  refine ⟨Nat.dvd_mul_left a _, ?_, ?_⟩
  · have := Nat.lt_div_mul_add ha (a := n + a - 1)
    omega
  · rintro r ⟨k, rfl⟩ hn
    rw [Nat.mul_comm a k]
    refine Nat.mul_le_mul_right a (Nat.le_of_lt_succ ?_)
    rw [Nat.div_lt_iff_lt_mul ha, Nat.succ_mul, Nat.mul_comm k a]
    omega

theorem isPowerOfTwo_pow (k : Nat) : isPowerOfTwo (2 ^ k) = true := by
  simp [isPowerOfTwo, Nat.log2_two_pow]

/-- The parsed document, once the descriptors end at `p`. -/
def Document.parsed (doc : Document) (p : Nat) : Gguf where
  version := doc.version
  metadata := doc.metadata.foldl (fun m (k, v) => m.insert k v) ∅
  tensors := doc.tensors
  dataOffset := (p + doc.alignment - 1) / doc.alignment * doc.alignment

theorem Document.mem_parsed {doc : Document} (hdoc : doc.WellFormed) (p : Nat) (k : String)
    (v : Value) : (doc.parsed p).metadata[k]? = some v ↔ (k, v) ∈ doc.metadata := by
  rw [parsed, getElem?_foldl_insert hdoc.keys, ← lookup_eq_some_iff_mem hdoc.keys]
  simp

theorem parses_finishDocument {doc : Document} (hdoc : doc.WellFormed) {start : Nat}
    (hstart : start < 2 ^ 63) :
    Parses (finishDocument doc.version doc.metadata doc.tensors) start [] (doc.parsed start) := by
  have halign : (alignmentOf (doc.metadata.foldl (fun m (k, v) => m.insert k v) ∅)).toNat
      = doc.alignment := by
    rw [alignmentOf, getElem?_foldl_insert hdoc.keys]
    simp [Document.alignment]
  obtain ⟨e, he⟩ := hdoc.alignment
  have hlt : doc.alignment < 2 ^ 64 := UInt64.toNat_lt _
  have hpow : isPowerOfTwo doc.alignment = true := by rw [he]; exact isPowerOfTwo_pow e
  have hne : doc.alignment ≠ 0 := by rw [he]; exact (Nat.two_pow_pos e).ne'
  simp only [finishDocument, halign]
  rw [if_neg (by simp [hne, hpow])]
  exact Parses.position (f := fun n => nextMultipleOf n doc.alignment)
    (nextMultipleOf_ok hstart hne (isPowerOfTwo_le hpow hlt)) _

theorem parses_body {doc : Document} (hdoc : doc.WellFormed) {entries : List Bytes}
    (h : List.Forall₂ EntryLayout doc.metadata entries) {bs : Bytes}
    (hbs : bs = entries.flatten ++ (doc.tensors.map tensorLayout).flatten) (start : Nat)
    (hlen : start + bs.length < 2 ^ 63) :
    Parses (body doc.version doc.tensors.length doc.metadata.length) start bs
      (doc.parsed (start + bs.length)) := by
  have hentries := Parses.times (List.Forall₂.imp (fun _ _ hkv => parses_entry hkv) h) start
  have hinfos : List.Forall₂ (fun t bs => ∀ start, Parses tensorInfo start bs t) doc.tensors
      (doc.tensors.map tensorLayout) :=
    List.forall₂_map_right_iff.mpr
      (List.forall₂_same.mpr fun t ht => parses_tensorInfo (hdoc.dims t ht))
  have htensors := Parses.times hinfos (start + entries.flatten.length)
  have hend : start + entries.flatten.length + (doc.tensors.map tensorLayout).flatten.length
      = start + bs.length := by
    rw [hbs, List.length_append, Nat.add_assoc]
  have hfinish := parses_finishDocument hdoc (hend ▸ hlen)
  have hbody := hentries.bind (f := fun entries => Parse.times doc.tensors.length tensorInfo >>=
    fun tensors => finishDocument doc.version entries tensors) (htensors.bind hfinish)
  rwa [List.append_nil, ← hbs, hend] at hbody

theorem parses_document {doc : Document} {bs : Bytes} (hdoc : doc.WellFormed)
    (h : doc.Layout bs) : Parses document 0 bs (doc.parsed bs.length) := by
  refine Parses.of_length fun hlen => ?_
  cases h with
  | @mk entries hentries =>
    have hkv := length_le_flatten (fun _ _ => length_entry) hentries
    have ht : doc.tensors.length ≤ (doc.tensors.map tensorLayout).flatten.length :=
      length_le_flatten (R := fun t bs => bs = tensorLayout t)
        (fun t bs hbs => hbs ▸ length_tensorLayout t)
        (List.forall₂_map_right_iff.mpr (List.forall₂_same.mpr fun _ _ => rfl))
    simp only [List.length_append] at hlen
    obtain ⟨nt, hnt, htread⟩ := parses_count (n := doc.tensors.length) (by omega)
      (0 + magic.length + (toLE 4 doc.version.toNat).length)
    obtain ⟨nkv, hnkv, hkvread⟩ := parses_count (n := doc.metadata.length) (by omega)
      (0 + magic.length + (toLE 4 doc.version.toNat).length + (toLE 8 doc.tensors.length).length)
    refine (parses_take magic 0).bind ?_
    rw [if_neg (not_not.mpr rfl)]
    refine (parses_readU32 doc.version _).bind ?_
    rw [if_neg (by rcases hdoc.version with h | h <;> rw [h] <;> decide)]
    refine htread.bind (hkvread.bind ?_)
    rw [hnt, hnkv]
    refine Parses.guard (m := doc.metadata.length * 13 + doc.tensors.length * 24) ?_
      (exact_body _ _ _) left_of_pos
      (P := fun r => r / minTensorBytes < doc.tensors.length
        ∨ r / minKvBytes < doc.metadata.length) (fun r hr => ?_) _
    · have hbody := parses_body hdoc hentries rfl (0 + magic.length
        + (toLE 4 doc.version.toNat).length + (toLE 8 doc.tensors.length).length
        + (toLE 8 doc.metadata.length).length) (by simp only [List.length_append]; omega)
      have hend : 0 + magic.length + (toLE 4 doc.version.toNat).length
          + (toLE 8 doc.tensors.length).length + (toLE 8 doc.metadata.length).length
          + (entries.flatten ++ (doc.tensors.map tensorLayout).flatten).length
        = (magic ++ (toLE 4 doc.version.toNat ++ (toLE 8 doc.tensors.length ++
            (toLE 8 doc.metadata.length ++ (entries.flatten ++
              (doc.tensors.map tensorLayout).flatten))))).length := by
        simp only [List.length_append]
        omega
      rwa [hend] at hbody
    · simp only [minTensorBytes, minKvBytes]
      omega

/-- **Parsing gives back the document that was laid out**, whatever data follows it, and the data
section starts at the smallest multiple of the alignment at or after the descriptors' end. -/
theorem parse_layout {doc : Document} {bs : Bytes} (hdoc : doc.WellFormed) (h : doc.Layout bs)
    (data : Bytes) (hlen : (bs ++ data).length < 2 ^ 63) :
    ∃ g, parse (bs ++ data) = .ok g ∧ g.version = doc.version ∧
      (∀ k v, g.metadata[k]? = some v ↔ (k, v) ∈ doc.metadata) ∧ g.tensors = doc.tensors ∧
      doc.alignment ∣ g.dataOffset ∧ bs.length ≤ g.dataOffset ∧
      ∀ n, doc.alignment ∣ n → bs.length ≤ n → g.dataOffset ≤ n := by
  have hrun := parses_document hdoc h [] data rfl hlen
  have hpos : 0 < doc.alignment := by
    obtain ⟨e, he⟩ := hdoc.alignment
    rw [he]
    exact Nat.two_pow_pos e
  refine ⟨doc.parsed bs.length, parse_of_document hrun, rfl, doc.mem_parsed hdoc bs.length, rfl, ?_⟩
  exact nextMultiple_least hpos

/-- A header with an alignment of its own, arrays within an array, and one tensor. -/
def sampleDocument : Document where
  version := 3
  metadata := [("general.alignment", .u32 64), ("flag", .bool true),
    ("nested", .array [.array [], .array [.i8 (-1), .i8 2]])]
  tensors := [{ name := "output.weight", dims := [2, 3], ggmlType := 0, offset := 128 }]

theorem sampleDocument_wellFormed : sampleDocument.WellFormed where
  version := .inr rfl
  keys := by decide
  dims t ht := by
    rw [List.mem_singleton.mp ht]
    decide
  alignment := ⟨6, by decide⟩

theorem Layout.array_of {d : Nat} {items : List Value} {bss : List Bytes} (elemType : UInt32)
    (hdepth : items = [] ∨ d + 1 ≤ 8) (h : List.Forall₂ (Layout (d + 1) elemType) items bss) :
    Layout d 9 (.array items)
      (toLE 4 elemType.toNat ++ (toLE 8 items.length ++ bss.flatten)) :=
  .array hdepth (List.forall₂_iff_zip.mp h).1 fun _ _ hmem => (List.forall₂_iff_zip.mp h).2 hmem

theorem sampleDocument_layout : ∃ bs, sampleDocument.Layout bs ∧ bs.length < 1000 := by
  have hempty := Layout.array_of (d := 1) 8 (.inl rfl) .nil
  have hbytes := Layout.array_of (d := 1) 1 (.inr (by omega)) (.cons (.i8 (-1)) (.cons (.i8 2) .nil))
  have hnested := Layout.array_of (d := 0) 9 (.inr (by omega)) (.cons hempty (.cons hbytes .nil))
  have hentries : List.Forall₂ EntryLayout sampleDocument.metadata _ :=
    .cons ⟨_, _, .u32 64, rfl⟩ (.cons ⟨_, _, .bool true, rfl⟩ (.cons ⟨_, _, hnested, rfl⟩ .nil))
  exact ⟨_, ⟨hentries⟩, by decide +kernel⟩

theorem parse_layout_sample :
    ∃ bs g, sampleDocument.Layout bs ∧ parse (bs ++ [7, 7]) = .ok g ∧ 64 ∣ g.dataOffset ∧
      g.tensors = sampleDocument.tensors := by
  obtain ⟨bs, hbs, hlen⟩ := sampleDocument_layout
  obtain ⟨g, hg, -, -, ht, halign, -⟩ := parse_layout sampleDocument_wellFormed hbs [7, 7]
    (by rw [List.length_append, List.length_cons, List.length_singleton]; omega)
  exact ⟨bs, g, hbs, hg, halign, ht⟩

end Gguf

end Garuda
