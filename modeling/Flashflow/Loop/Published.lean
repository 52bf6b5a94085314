import Flashflow.Loop.Results
import Flashflow.Sched.Printing
import Flashflow.V3bw.Minimum
import Flashflow.V3bw.Overflow
import Flashflow.V3bw.RoundTrip

/-! What is published of the results of a run: whatever the clients send, the bandwidth of a relay
depends only on what was sent for that relay by clients that were measuring for it. -/
namespace Flashflow
open Sched Program Outcome Tokens Iteration

/-! The names in a line. -/

/-- An ASCII byte of an encoded character is the character. -/
theorem toNat_of_ascii {c : Char} {b : UInt8} (hb : b ∈ String.utf8EncodeChar c)
    (hlt : b.toNat < 128) : c.toNat = b.toNat := by
  have hmod : ∀ n : ℕ, (UInt8.ofNat n).toNat = n % 256 := fun n => rfl
  have hval : c.toNat = c.val.toNat := rfl
  unfold String.utf8EncodeChar at hb
  dsimp only at hb
  split_ifs at hb <;> simp only [List.mem_cons, List.not_mem_nil, or_false] at hb
  · subst hb
    rw [hmod, hval]
    omega
  · rcases hb with rfl | rfl <;> rw [hmod] at hlt <;> omega
  · rcases hb with rfl | rfl | rfl <;> rw [hmod] at hlt <;> omega
  · rcases hb with rfl | rfl | rfl | rfl <;> rw [hmod] at hlt <;> omega

theorem not_mem_utf8 {t : Text} {a : Char} {b : UInt8} (hb : b.toNat < 128)
    (hab : a.toNat = b.toNat) (ha : a ∉ t) : b ∉ utf8 t := by
  intro hin
  obtain ⟨c, hc, hbc⟩ := List.mem_flatMap.mp hin
  obtain rfl : c = a := Char.toNat_inj.mp ((toNat_of_ascii hbc hb).trans hab.symm)
  exact ha hc

/-- The name of a relay is a word, if its line comes from a file and it can become a C string. -/
theorem plain_fp {lines : List Text} {ms : List Measurement} {m : Measurement}
    (hms : parseLines lines = .ok ms) (hlines : ∀ line ∈ lines, '\n' ∉ line) (hm : m ∈ ms)
    (hnul : m.NulFree) : Plain (utf8 m.fp) := by
  simp only [parseLines, bind_eq_ok, pure_eq_ok] at hms
  obtain ⟨os, hos, rfl⟩ := hms
  obtain ⟨o, ho, rfl⟩ : ∃ o ∈ os, o = some m := by simpa using hm
  obtain ⟨line, hline, hread⟩ := exists_of_mapM hos ho
  have hfp := newFromString_fp hread
  refine ⟨not_mem_utf8 (a := ' ') (by decide) rfl fun h => (hfp _ h).2 rfl,
    not_mem_utf8 (a := '\n') (by decide) rfl fun h => hlines line hline (hfp _ h).1,
    not_mem_utf8 (a := '\x00') (by decide) rfl hnul.1⟩

/-! The results in the file. -/

/-- What the reader of `v3bw.c` makes of a written line. -/
def ResultLine.triple (l : ResultLine) : Option Triple :=
  match splitAtMost 4 l.token with
  | [code, kind, ts, bwdown, _] => acceptWords l.fp code kind ts bwdown
  | _ => none

/-- The results of one read. -/
def Chunk.triples (script : ℕ → Answer) (clients : List Meta) (k : Chunk) : List Triple :=
  (k.lines script clients).filterMap ResultLine.triple

theorem acceptWords_fp {fp code kind ts bwdown : Bytes} {t : Triple}
    (h : acceptWords fp code kind ts bwdown = some t) : t.fp = fp := by
  unfold acceptWords at h
  split_ifs at h
  rw [← Option.some.inj h]

theorem ResultLine.triple_fp {l : ResultLine} {t : Triple} (h : l.triple = some t) :
    t.fp = l.fp := by
  unfold triple at h
  split at h
  · exact acceptWords_fp h
  · cases h

section
variable {r : Round} {ms : List Measurement} {clients : List Meta} {chunks : List Chunk}
  {p : Point} {s : Loop} {k : Chunk} {l : ResultLine} {script : ℕ → Answer}

/-- A line of a read names the relay and the client, and then has a piece of what was received. -/
theorem Chunk.mem_lines (h : l ∈ k.lines script clients) : l.fp = utf8 k.msm.fp ∧
    (∃ x ∈ clients, l.cls = x.cls ∧ l.host = x.host ∧ l.port = x.port) ∧
    0x0A ∉ l.token ∧ 0 ∉ l.token := by
  unfold Chunk.lines at h
  split at h
  · exact absurd h List.not_mem_nil
  next x hx =>
    unfold readingLines resultLines at h
    split at h
    next t got _ _ =>
      obtain ⟨token, htoken, rfl⟩ := List.mem_map.mp h
      obtain ⟨-, hclean, hin⟩ := mem_tokens htoken
      refine ⟨rfl, ⟨x, List.mem_of_getElem? hx, rfl, rfl, rfl⟩, fun hb => ?_, fun hb => ?_⟩
      · exact absurd (hclean _ hb) (by decide)
      · exact zero_not_mem_cstr got (hin.subset hb)
    · exact absurd h List.not_mem_nil

theorem Attributed.plain (h : Attributed r ms clients chunks (p, s))
    (hms : parseLines r.lines = .ok ms) (hclients : tcClientFileRead r.clientFile = .ok clients)
    (hlines : ∀ line ∈ r.lines, '\n' ∉ line) (hk : k ∈ chunks)
    (hl : l ∈ k.lines r.os.script clients) : l.Plain := by
  obtain ⟨hfp, ⟨x, hx, hcls, hhost, hport⟩, hnl, hzero⟩ := Chunk.mem_lines hl
  obtain ⟨pcls, phost, pport⟩ := tcClientFileRead_plain hclients x hx
  exact ⟨hfp ▸ plain_fp hms hlines (h.loaded k hk) (h.names k hk), hcls ▸ pcls, hhost ▸ phost,
    hport ▸ pport, hnl, hzero⟩

/-- The file is read as the results of the reads, one after the other. -/
theorem Attributed.accepted (h : Attributed r ms clients chunks (p, s))
    (hms : parseLines r.lines = .ok ms) (hclients : tcClientFileRead r.clientFile = .ok clients)
    (hlines : ∀ line ∈ r.lines, '\n' ∉ line) (hnew : r.os.out = []) :
    acceptedTriples (s.os.out.flatMap ResultLine.render) =
      .ok (chunks.flatMap (Chunk.triples r.os.script clients)) := by
  have hout := h.reads hnew
  have hread : readLines (s.os.out.flatMap ResultLine.render) =
      .ok (s.os.out.map ResultLine.triple) := by
    refine readLines_render fun l hl => ?_
    rw [hout] at hl
    obtain ⟨k, hk, hl⟩ := List.mem_flatMap.mp hl
    have hplain := h.plain hms hclients hlines hk hl
    exact ⟨hplain, readLine_render hplain⟩
  have hflat : (chunks.flatMap (Chunk.lines r.os.script clients)).filterMap ResultLine.triple =
      chunks.flatMap (Chunk.triples r.os.script clients) := List.filterMap_flatMap
  rw [acceptedTriples, hread, ← hflat, hout]
  simp only [bind, Except.bind, pure, Except.pure, List.filterMap_map, Function.id_comp]

theorem Chunk.triples_fp {t : Triple} (ht : t ∈ k.triples script clients) :
    t.fp = utf8 k.msm.fp := by
  obtain ⟨l, hl, htriple⟩ := List.mem_filterMap.mp ht
  rw [ResultLine.triple_fp htriple, (Chunk.mem_lines hl).1]

/-- The results for one relay are those of the reads for it. -/
theorem filter_triples (fp : Bytes) :
    (chunks.flatMap (Chunk.triples script clients)).filter (fun t => t.fp = fp) =
      (chunks.filter fun k => utf8 k.msm.fp = fp).flatMap (Chunk.triples script clients) := by
  induction chunks with
  | nil => rfl
  | cons k chunks ih =>
    rw [List.flatMap_cons, List.filter_append, ih]
    by_cases hfp : utf8 k.msm.fp = fp
    · rw [List.filter_cons_of_pos (by simpa using hfp), List.flatMap_cons,
        List.filter_eq_self.mpr fun t ht => by simpa using (Chunk.triples_fp ht).trans hfp]
    · rw [List.filter_cons_of_neg (by simpa using hfp), List.filter_eq_nil_iff.mpr fun t ht => by
        simpa using fun h => hfp ((Chunk.triples_fp ht).symm.trans h), List.nil_append]

/-- The bandwidths that are published for the reads `chunks`. -/
structure Published (script : ℕ → Answer) (clients : List Meta) (chunks : List Chunk)
    (nodes : List NodeLine) : Prop where
  relays : ∀ fp, fp ∈ nodes.map NodeLine.fp ↔
    ∃ k ∈ chunks, utf8 k.msm.fp = fp ∧ k.triples script clients ≠ []
  once : (nodes.map NodeLine.fp).Nodup
  bandwidths : ∀ n ∈ nodes, IsBandwidth ((chunks.filter fun k => utf8 k.msm.fp = n.fp).flatMap
    (Chunk.triples script clients)) n.fp n.bw

/-- Whatever the clients send, a relay is published if and only if a client that was measuring for
it has sent a result, and its bandwidth is that of the results sent by such clients. -/
theorem Attributed.published (h : Attributed r ms clients chunks (p, s))
    (hms : parseLines r.lines = .ok ms) (hclients : tcClientFileRead r.clientFile = .ok clients)
    (hlines : ∀ line ∈ r.lines, '\n' ∉ line) (hnew : r.os.out = []) (rank : Bytes → ℕ) :
    v3bwGenerate rank (s.os.out.flatMap ResultLine.render) = .error .signedOverflow ∨
    ∃ nodes, v3bwGenerate rank (s.os.out.flatMap ResultLine.render) = .ok nodes ∧
      Published r.os.script clients chunks nodes := by
  have hacc := h.accepted hms hclients hlines hnew
  have hseen := seenTriples_of_accepted hacc
  have hread : readInputToHt (s.os.out.flatMap ResultLine.render) =
      readToEnd (s.os.out.flatMap ResultLine.render) := by
    rw [readToEnd_eq, hseen, (acceptedTriples_ok hacc).2]
  rcases readToEnd_cases (s.os.out.flatMap ResultLine.render) with ⟨-, ht, hok, -⟩ | ⟨-, herr⟩
  · have hok : v3bwGenerate rank (s.os.out.flatMap ResultLine.render) =
        .ok ((ranked rank MsmInfo.fp ht.entries).map MsmInfo.node) := by
      rw [v3bwGenerate, hread, hok]
      rfl
    obtain ⟨hbw, hall⟩ := v3bwGenerate_ok hok
    rw [hseen] at hbw hall
    refine .inr ⟨_, hok, fun fp => ⟨fun hin => ?_, fun hin => ?_⟩, ?_, fun n hn => ?_⟩
    · obtain ⟨n, hn, rfl⟩ := List.mem_map.mp hin
      obtain ⟨first, -, hfirst, -⟩ := hbw n hn
      obtain ⟨t, ht, hfp, -⟩ := firstTs_mem hfirst
      obtain ⟨k, hk, hkt⟩ := List.mem_flatMap.mp ht
      exact ⟨k, hk, (Chunk.triples_fp hkt).symm.trans hfp, List.ne_nil_of_mem hkt⟩
    · obtain ⟨k, hk, rfl, hne⟩ := hin
      obtain ⟨t, ht⟩ := List.exists_mem_of_ne_nil _ hne
      obtain ⟨n, hn, hfp⟩ := hall t (List.mem_flatMap.mpr ⟨k, hk, ht⟩)
      exact List.mem_map.mpr ⟨n, hn, hfp.trans (Chunk.triples_fp ht)⟩
    · rw [List.map_map]
      exact ((ranked_perm rank MsmInfo.fp ht.entries).map MsmInfo.fp).nodup_iff.mpr ht.nodup
    · rw [← filter_triples]
      exact isBandwidth_filter.mpr (hbw n hn)
  · exact .inl (by rw [v3bwGenerate, hread, herr]; rfl)

end
end Flashflow
