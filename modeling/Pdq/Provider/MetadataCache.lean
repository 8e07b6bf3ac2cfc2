/- Pdq.Provider.MetadataCache -- parsed Parquet footers, kept for the life of the
provider.

A reader asks the cache under the path of its file before it asks the reader it
wraps; what that one parses is kept under the path and never dropped.  The
wrapped reader and its results are parameters: `inner` answers a request at a
moment, which stands for the files as they are then.  So a request is answered by
the first request for its path that the wrapped reader answered
(`MetadataRequest.serve_eq`), whatever has happened to the file since and
whatever options that request had (`rewritten_file_refuted`). -/
import Pdq.FileTree
import Pdq.Theory.FiniteMap

namespace Pdq

open Theory

set_option autoImplicit false

/-! ## The cache -/

/-- Parsed metadata by object-store path, and the two counters. -/
structure MetadataCache (M : Type) where
  entries : FiniteMap Str M
  hits : Nat
  misses : Nat

namespace MetadataCache

variable {M : Type}

def empty : MetadataCache M := ⟨∅, 0, 0⟩

/-- `MetadataCache::get` -/
def get (cache : MetadataCache M) (key : Str) : Option M × MetadataCache M :=
  match cache.entries.lookup key with
  | some metadata => (some metadata, { cache with hits := cache.hits + 1 })
  | none => (none, cache)

/-- `MetadataCache::insert` -/
def insert (cache : MetadataCache M) (key : Str) (metadata : M) : MetadataCache M :=
  { cache with entries := cache.entries.insert key metadata, misses := cache.misses + 1 }

/-- `MetadataCache::stats` -/
def stats (cache : MetadataCache M) : Nat × Nat := (cache.hits, cache.misses)

end MetadataCache

/-! ## Readers -/

/-- The location and size an object store lists for a file. -/
structure ObjectMeta where
  location : Str
  size : UInt64
  deriving DecidableEq, Repr

/-- The reader that is wrapped: it parses the footer of the file at `location`. -/
structure ParquetObjectReader where
  location : Str
  fileSize : UInt64
  footerSizeHint : Option Nat
  deriving DecidableEq, Repr

structure ParquetReaderWithCache where
  key : Str
  inner : ParquetObjectReader
  deriving DecidableEq, Repr

structure CachedParquetFileReaderFactory where
  /-- Used when DataFusion passes no hint. -/
  metadataSizeHint : Option Nat
  deriving DecidableEq, Repr

/-- `CachedParquetFileReaderFactory::create_reader`: the key is the whole path. -/
def createReader (factory : CachedParquetFileReaderFactory) (objectMeta : ObjectMeta)
    (metadataSizeHint : Option Nat) : ParquetReaderWithCache where
  key := objectMeta.location
  inner :=
    { location := objectMeta.location
      fileSize := objectMeta.size
      footerSizeHint := metadataSizeHint.or factory.metadataSizeHint }

/-! ## Requests -/

/-- One `get_metadata` call through a fresh reader, at a moment. -/
structure MetadataRequest (W O : Type) where
  moment : W
  objectMeta : ObjectMeta
  metadataSizeHint : Option Nat
  options : Option O

section Requests

variable {W O E M : Type} (factory : CachedParquetFileReaderFactory)
  (inner : W → ParquetObjectReader → Option O → Except E M)

/-- `ParquetReaderWithCache::get_metadata` -/
def getMetadata (moment : W) (cache : MetadataCache M) (reader : ParquetReaderWithCache)
    (options : Option O) : Except E M × MetadataCache M :=
  match cache.get reader.key with
  | (some metadata, cache) => (.ok metadata, cache)
  | (none, cache) =>
      match inner moment reader.inner options with
      | .error e => (.error e, cache)
      | .ok metadata => (.ok metadata, cache.insert reader.key metadata)

/-- **What one call does**: a hit, a failed parse, or a parse that is kept. -/
theorem getMetadata_cases (moment : W) (cache : MetadataCache M) (reader : ParquetReaderWithCache)
    (options : Option O) :
    (∃ metadata, cache.entries.lookup reader.key = some metadata ∧
        getMetadata inner moment cache reader options =
          (.ok metadata, { cache with hits := cache.hits + 1 })) ∨
      cache.entries.lookup reader.key = none ∧
        ((∃ e, inner moment reader.inner options = .error e ∧
            getMetadata inner moment cache reader options = (.error e, cache)) ∨
          ∃ metadata, inner moment reader.inner options = .ok metadata ∧
            getMetadata inner moment cache reader options =
              (.ok metadata, cache.insert reader.key metadata)) := by
  unfold getMetadata MetadataCache.get
  cases cached : cache.entries.lookup reader.key with
  | some metadata => exact Or.inl ⟨metadata, rfl, rfl⟩
  | none =>
      refine Or.inr ⟨rfl, ?_⟩
      cases parsed : inner moment reader.inner options with
      | error e => exact Or.inl ⟨e, rfl, rfl⟩
      | ok metadata => exact Or.inr ⟨metadata, rfl, rfl⟩

namespace MetadataRequest

/-- The reader the factory makes for the request. -/
def reader (request : MetadataRequest W O) : ParquetReaderWithCache :=
  createReader factory request.objectMeta request.metadataSizeHint

/-- What the wrapped reader answers. -/
def uncached (request : MetadataRequest W O) : Except E M :=
  inner request.moment (request.reader factory).inner request.options

/-- What the cached reader answers, and the cache it leaves. -/
def serve (cache : MetadataCache M) (request : MetadataRequest W O) :
    Except E M × MetadataCache M :=
  getMetadata inner request.moment cache (request.reader factory) request.options

/-- The cache after a sequence of requests. -/
def serveAll (requests : List (MetadataRequest W O)) : MetadataCache M :=
  requests.foldl (fun cache request => (serve factory inner cache request).2) .empty

/-- What the request leaves under `location` in an empty cache. -/
def parsedFor (location : Str) (request : MetadataRequest W O) : Option M :=
  if request.objectMeta.location = location then (request.uncached factory inner).toOption else none

/-- The first answer of the wrapped reader to a request for the path. -/
def firstParsed (requests : List (MetadataRequest W O)) (location : Str) : Option M :=
  requests.findSome? (parsedFor factory inner location)

/-! ## What a request is answered -/

variable {factory inner}

theorem serve_result (cache : MetadataCache M) (request : MetadataRequest W O) :
    (serve factory inner cache request).1 =
      match cache.entries.lookup request.objectMeta.location with
      | some metadata => .ok metadata
      | none => request.uncached factory inner := by
  have key : (request.reader factory).key = request.objectMeta.location := rfl
  unfold serve uncached
  rcases getMetadata_cases inner request.moment cache (request.reader factory) request.options with
    ⟨metadata, cached, served⟩ | ⟨missing, ⟨e, failed, served⟩ | ⟨metadata, parsed, served⟩⟩
  · rw [served, ← key, cached]
  · rw [served, ← key, missing, failed]
  · rw [served, ← key, missing, parsed]

/-- One request fills an empty entry of its path when the wrapped reader answers;
no other entry changes. -/
theorem serve_lookup (cache : MetadataCache M) (request : MetadataRequest W O) (location : Str) :
    (serve factory inner cache request).2.entries.lookup location =
      (cache.entries.lookup location).or (parsedFor factory inner location request) := by
  have key : (request.reader factory).key = request.objectMeta.location := rfl
  unfold serve parsedFor uncached
  rcases getMetadata_cases inner request.moment cache (request.reader factory) request.options with
    ⟨metadata, cached, served⟩ | ⟨missing, ⟨e, failed, served⟩ | ⟨metadata, parsed, served⟩⟩
  · rw [served]
    split
    · rename_i same
      rw [← same, ← key, cached]
      rfl
    · exact Option.or_none.symm
  · rw [served, failed]
    split <;> exact Option.or_none.symm
  · rw [served, parsed]
    split
    · rename_i same
      rw [← same, ← key, missing]
      exact AList.lookup_insert _
    · rename_i other
      rw [Option.or_none]
      exact AList.lookup_insert_ne fun same => other (key.symm.trans same.symm)

/-- **After a sequence of requests** the cache holds under each path the first
answer of the wrapped reader. -/
theorem serveAll_lookup (requests : List (MetadataRequest W O)) (location : Str) :
    (serveAll factory inner requests).entries.lookup location =
      firstParsed factory inner requests location := by
  have loop : ∀ cache : MetadataCache M,
      (requests.foldl (fun cache request => (serve factory inner cache request).2)
        cache).entries.lookup location =
      (cache.entries.lookup location).or (firstParsed factory inner requests location) := by
    induction requests with
    | nil => exact fun cache => Option.or_none.symm
    | cons request requests ih =>
        intro cache
        have first : firstParsed factory inner (request :: requests) location =
            (parsedFor factory inner location request).or
              (firstParsed factory inner requests location) := by
          rw [firstParsed, List.findSome?_cons]
          cases parsedFor factory inner location request <;> rfl
        rw [List.foldl_cons, ih, serve_lookup, Option.or_assoc, first]
  exact (loop .empty).trans (by rw [MetadataCache.empty, AList.lookup_empty, Option.none_or])

/-- **What each request of a sequence is answered**: what the wrapped reader
answered the first request for the path that it answered, and what it answers now
while there is none.  So it is the answer of the wrapped reader as long as that
one's answer for the path has not changed since. -/
theorem serve_eq (earlier : List (MetadataRequest W O)) (request : MetadataRequest W O) :
    (serve factory inner (serveAll factory inner earlier) request).1 =
        (match firstParsed factory inner earlier request.objectMeta.location with
          | some metadata => .ok metadata
          | none => request.uncached factory inner) ∧
      ((serve factory inner (serveAll factory inner earlier) request).1 =
          request.uncached factory inner ↔
        ∀ metadata, firstParsed factory inner earlier request.objectMeta.location = some metadata →
          request.uncached factory inner = .ok metadata) := by
  rw [serve_result, serveAll_lookup]
  refine ⟨rfl, ?_⟩
  cases firstParsed factory inner earlier request.objectMeta.location with
  | none => simp
  | some metadata => simp [eq_comm]

end MetadataRequest

end Requests

/-! ## A rewritten file, and other options -/

/-- A wrapped reader of one file: the row groups of the file as it is now, and the
page index when the options ask for it. -/
def footerOf (file : ParquetFile) (_ : ParquetObjectReader) (options : Option Bool) :
    Except IndexError (Nat × Bool) :=
  .ok (file.numRowGroups, options.getD false)

def sampleFactory : CachedParquetFileReaderFactory := ⟨some (512 * 1024)⟩

def footerRequest (file : ParquetFile) (options : Option Bool) : MetadataRequest ParquetFile Bool :=
  ⟨file, ⟨"d/a.parquet".toList, 1024⟩, none, options⟩

def oneGroup : ParquetFile := .ofStrings "name".toList [["dave".toList]] (by decide)

def twoGroups : ParquetFile := .ofStrings "name".toList [["bob".toList], ["carol".toList]] (by decide)

/-- After a rewrite, and under options that ask for the page index, the answer is
the one kept from the first request. -/
theorem rewritten_file_refuted :
    (MetadataRequest.serve sampleFactory footerOf
        (MetadataRequest.serveAll sampleFactory footerOf [footerRequest oneGroup none])
        (footerRequest twoGroups none)).1 = .ok (1, false) ∧
      (footerRequest twoGroups none).uncached sampleFactory footerOf = .ok (2, false) ∧
      (MetadataRequest.serve sampleFactory footerOf
        (MetadataRequest.serveAll sampleFactory footerOf [footerRequest oneGroup none])
        (footerRequest oneGroup (some true))).1 = .ok (1, false) ∧
      (footerRequest oneGroup (some true)).uncached sampleFactory footerOf = .ok (1, true) :=
  ⟨rfl, rfl, rfl, rfl⟩

end Pdq
