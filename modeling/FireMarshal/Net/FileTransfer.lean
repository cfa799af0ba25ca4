import FireMarshal.Lib.Chunks

/-! Files over TCP (`boards/default/lib/file_sender.c`, `boards/default/lib/file_receiver.c`).

A connection is the stream of bytes that the sender wrote until it closed its end, in the chunks in which they arrive.
Each `recv` gets bytes from one chunk. Calls that set up sockets succeed. -/

namespace FireMarshal
namespace FileTransfer

def bufSize : Nat := 4096

def filenameSize : Nat := 256

/-- The bytes of a `uint32_t` after `htonl`. -/
def htonl (n : Nat) : List UInt8 := [n >>> 24, n >>> 16, n >>> 8, n].map UInt8.ofNat

def ntohl (bytes : List UInt8) : Nat := bytes.foldl (fun n b => 256 * n + b.toNat) 0

def slash : UInt8 := 47

def dot : UInt8 := 46

/-! ### Sender -/

/-- `basename` of libgen -/
def basename (path : List UInt8) : List UInt8 :=
  if path = [] then [dot]
  else
    match path.reverse.dropWhile (· = slash) with
    | [] => [slash]
    | p => (p.takeWhile (· ≠ slash)).reverse

/-- The bytes of each `send`, for a file that can be opened. -/
def send (path content : List UInt8) : List (List UInt8) :=
  htonl (basename path).length :: basename path :: Chunks.reads bufSize content.length [content]

/-! ### Receiver -/

/-- Local variables of `main` hold anything before they are written. -/
structure Locals where
  fnameLen : List UInt8
  filename : List UInt8
  length_fnameLen : fnameLen.length = 4
  length_filename : filename.length = filenameSize

inductive Failure where
  | fnameLen
  | tooLong
  | filename
  | fopen
deriving DecidableEq, Repr

def Failure.message : Failure → String
  | fnameLen => "recv filename length failed"
  | tooLong => "Filename too long!"
  | filename => "recv filename failed"
  | fopen => "File open failed"

def fill (buffer bytes : List UInt8) : List UInt8 := bytes ++ buffer.drop bytes.length

def cString (buffer : List UInt8) : List UInt8 := buffer.takeWhile (· ≠ 0)

/-- The name and the content of the file that is written for one connection; `fopen` says which files can be opened
    for writing. -/
def receive (fopen : List UInt8 → Bool) (locals : Locals) (connection : List (List UInt8)) :
    Except Failure (List UInt8 × List UInt8) :=
  let (bytes, connection) := Chunks.read 4 connection
  if bytes = [] then .error .fnameLen
  else
    let fnameLen := ntohl (fill locals.fnameLen bytes)
    if filenameSize ≤ fnameLen then .error .tooLong
    else
      let (bytes, connection) := Chunks.read fnameLen connection
      if bytes = [] then .error .filename
      else
        let filename := cString ((fill locals.filename bytes).set fnameLen 0)
        if fopen filename then
          .ok (filename, (Chunks.reads bufSize connection.flatten.length connection).flatten)
        else .error .fopen

abbrev Disk := List UInt8 → Option (List UInt8)

/-- The loop of `main`, which any failure ends. -/
def serve (fopen : List UInt8 → Bool) : List (Locals × List (List UInt8)) → Disk → Disk × Option Failure
  | [], disk => (disk, none)
  | (locals, connection) :: rest, disk =>
    match receive fopen locals connection with
    | .error e => (disk, some e)
    | .ok (filename, content) => serve fopen rest (fun name => if name = filename then some content else disk name)

end FileTransfer
end FireMarshal
