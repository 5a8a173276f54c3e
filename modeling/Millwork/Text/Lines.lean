/-!
# Lines

A line ends at a line feed, at a carriage return, or at the two in that order.
-/
namespace Millwork.Text
def lines : List Char → List (List Char)
  | [] => [[]]
  | '\r' :: '\n' :: rest => [] :: lines rest
  | c :: rest =>
    if c = '\n' || c = '\r' then
      [] :: lines rest
    else
      match lines rest with
      | line :: more => (c :: line) :: more
      | [] => [[c]]

end Millwork.Text
