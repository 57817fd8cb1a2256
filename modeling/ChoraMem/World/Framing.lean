/-
The evidence in the digest of a request.

The digest is taken of one list of fields, in which Episodes, sources, Outcomes and
Recollections follow each other with free texts among them.  Every kind of field group can
be read back whatever follows it, so two lists of fields are one only for one evidence.
-/
import ChoraMem.Text.Framing
import ChoraMem.World.Contexts
import ChoraMem.World.Refine

namespace ChoraMem

/-! ## Groups of fields -/

theorem EvidenceOrigin.text_injective {a b : EvidenceOrigin} (h : a.text = b.text) : a = b := by
  cases a <;> cases b <;> first | rfl | exact absurd h (by decide)

/-- No role is written as no text. -/
theorem formationRole_injective {a b : Option FormationRole}
    (h : (a.map FormationRole.text).getD "" = (b.map FormationRole.text).getD "") : a = b := by
  rcases a with _ | a <;> rcases b with _ | b
  · rfl
  · cases b <;> exact absurd h (by decide)
  · cases a <;> exact absurd h (by decide)
  · cases a <;> cases b <;> first | rfl | exact absurd h (by decide)

theorem readable_source : Text.Readable fun s : EvidenceSource =>
    ["source", s.sourceRef, s.role.text, s.actorKind.text, s.actorRef, s.text] := by
  intro s s' u v heq
  simp only [List.cons_append, List.nil_append, List.cons.injEq, true_and] at heq
  obtain ⟨href, hrole, hkind, hactor, htext, huv⟩ := heq
  refine ⟨?_, huv⟩
  obtain ⟨ref, role, kind, actor, text⟩ := s
  obtain ⟨ref', role', kind', actor', text'⟩ := s'
  obtain rfl : ref = ref' := href
  obtain rfl := SourceRole.text_injective hrole
  obtain rfl := ActorKind.text_injective hkind
  obtain rfl : actor = actor' := hactor
  obtain rfl : text = text' := htext
  rfl

theorem readable_episode : Text.Readable fun e : EvidenceEpisode =>
    ["episode", e.episodeRef, e.sessionRef, e.origin.text,
      (e.formationRole.map FormationRole.text).getD "", "sources", toString e.sources.length] ++
    e.sources.flatMap fun s =>
      ["source", s.sourceRef, s.role.text, s.actorKind.text, s.actorRef, s.text] := by
  intro e e' u v heq
  simp only [List.cons_append, List.nil_append, List.cons.injEq, true_and] at heq
  obtain ⟨href, hsession, horigin, hrole, hlength, heq⟩ := heq
  obtain ⟨hsources, huv⟩ := readable_source.flatMap (toString_injective hlength) heq
  refine ⟨?_, huv⟩
  obtain ⟨ref, session, origin, role, sources⟩ := e
  obtain ⟨ref', session', origin', role', sources'⟩ := e'
  obtain rfl : ref = ref' := href
  obtain rfl : session = session' := hsession
  obtain rfl := EvidenceOrigin.text_injective horigin
  obtain rfl := formationRole_injective hrole
  obtain rfl : sources = sources' := hsources
  rfl

theorem readable_outcome : Text.Readable fun o : EvidenceOutcome =>
    ["outcome", o.outcomeRef, o.episodeRef, o.actorKind.text, o.actorRef, o.text] := by
  intro o o' u v heq
  simp only [List.cons_append, List.nil_append, List.cons.injEq, true_and] at heq
  obtain ⟨href, hepisode, hkind, hactor, htext, huv⟩ := heq
  refine ⟨?_, huv⟩
  obtain ⟨ref, episode, kind, actor, text⟩ := o
  obtain ⟨ref', episode', kind', actor', text'⟩ := o'
  obtain rfl : ref = ref' := href
  obtain rfl : episode = episode' := hepisode
  obtain rfl := ActorKind.text_injective hkind
  obtain rfl : actor = actor' := hactor
  obtain rfl : text = text' := htext
  rfl

theorem readable_recollection : Text.Readable fun r : EvidenceRecollection =>
    ["recollection", r.versionRef, r.application, r.text] := by
  intro r r' u v heq
  simp only [List.cons_append, List.nil_append, List.cons.injEq, true_and] at heq
  obtain ⟨href, happlication, htext, huv⟩ := heq
  refine ⟨?_, huv⟩
  obtain ⟨ref, application, text⟩ := r
  obtain ⟨ref', application', text'⟩ := r'
  obtain rfl : ref = ref' := href
  obtain rfl : application = application' := happlication
  obtain rfl : text = text' := htext
  rfl

/-! ## The evidence -/

theorem appendWorkerEvidenceHashFields_injective {fields : List String} {e e' : WindowEvidence}
    (heq : appendWorkerEvidenceHashFields fields e = appendWorkerEvidenceHashFields fields e') :
    e = e' := by
  simp only [appendWorkerEvidenceHashFields, List.append_assoc] at heq
  have heq := List.append_cancel_left heq
  simp only [List.cons_append, List.nil_append, List.cons.injEq, true_and] at heq
  obtain ⟨hepisodes, heq⟩ := heq
  obtain ⟨hepisodes, heq⟩ := readable_episode.flatMap (toString_injective hepisodes)
    (by simpa only [List.append_assoc, List.cons_append, List.nil_append] using heq)
  simp only [List.cons.injEq, true_and] at heq
  obtain ⟨houtcomes, heq⟩ := heq
  obtain ⟨houtcomes, heq⟩ := readable_outcome.flatMap (toString_injective houtcomes) heq
  simp only [List.cons.injEq, true_and] at heq
  obtain ⟨hrecollections, heq⟩ := heq
  rw [← List.append_nil (e.recollections.flatMap _),
    ← List.append_nil (e'.recollections.flatMap _)] at heq
  obtain ⟨hrecollections, _⟩ := readable_recollection.flatMap (toString_injective hrecollections) heq
  obtain ⟨episodes, outcomes, recollections⟩ := e
  obtain ⟨episodes', outcomes', recollections'⟩ := e'
  obtain rfl : episodes = episodes' := hepisodes
  obtain rfl : outcomes = outcomes' := houtcomes
  obtain rfl : recollections = recollections' := hrecollections
  rfl

/-- The fields of a request's digest tell its evidence, whatever the texts in it are: no text can
be taken for a marker, since every list stands behind its length. -/
theorem evidence_read_back (fields : List String) (e e' : WindowEvidence) :
    appendWorkerEvidenceHashFields fields e = appendWorkerEvidenceHashFields fields e' ↔ e = e' :=
  ⟨appendWorkerEvidenceHashFields_injective, fun heq => by rw [heq]⟩

end ChoraMem
